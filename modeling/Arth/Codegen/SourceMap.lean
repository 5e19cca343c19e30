import Arth.Codegen.Link
import Arth.Vm.DebugInfo

/-!
# Which function a code offset belongs to

Code generation records where each function starts, and linking moves these entries along with
the code. An offset of a linked program is attributed to the function whose code it lies in.

* `Maps` — the debug entries are sorted and each stands for the code of its function.
* `maps_program`, `Maps.link` — compiled programs have such entries, and linking keeps them.
* `lookup_attributed` — what the lookup answers for every offset.
-/

namespace Arth.Codegen

open Ir DebugEntry List

/-- What one program is compiled from. -/
structure Source where
  ctx : Ctx
  funcs : List Func

def Source.program (s : Source) : Program := compileIrToProgram s.ctx s.funcs

structure SourceLibrary where
  source : Source
  exports : List ExportEntry
  id : String

/-- The program that is linked from a main program and its libraries. -/
def linkSources (main : Source) (libraries : List SourceLibrary) : Program :=
  (linkPrograms main.program
    (libraries.map fun l => ⟨l.source.program, l.exports, l.id⟩)).program

/-- A function's debug entry, and the offsets of its code. -/
structure Located where
  entry : DebugEntry
  start : Nat
  stop : Nat

/-- Function `j` of a program whose code starts at `base`. -/
def Source.located (s : Source) (base j : Nat) (f : Func) : Located :=
  { entry := ⟨UInt32.ofNat (base + entryOffset s.ctx s.funcs j), f.name, f.sourceFile, 0⟩
    start := base + entryOffset s.ctx s.funcs j
    stop := base + entryOffset s.ctx s.funcs (j + 1) }

/-- The functions of programs whose code is put one behind another. -/
inductive LocatedIn : Nat → List Source → Located → Prop where
  | here {base j : Nat} {s : Source} {ss : List Source} {f : Func} (h : s.funcs[j]? = some f) :
    LocatedIn base (s :: ss) (s.located base j f)
  | later {base : Nat} {s : Source} {ss : List Source} {fn : Located}
    (h : LocatedIn (base + s.program.code.length) ss fn) : LocatedIn base (s :: ss) fn

/-! ## One program -/

variable {s : Source} {j : Nat} {f : Func}

theorem program_debugEntries (s : Source) :
    s.program.debugEntries = debugEntries s.funcs (unlinked s.ctx s.funcs) := by
  unfold Source.program compileIrToProgram
  split_ifs with h
  · rw [h]
    rfl
  · rfl

theorem program_length (s : Source) :
    s.program.code.length = (unlinkedItems s.ctx s.funcs).length + 1 := by
  unfold Source.program compileIrToProgram
  split_ifs with h
  · rw [h]
    rfl
  · simp only [length_append, length_map, length_singleton]
    rw [linked_length]

theorem entryOffset_mono (ctx : Ctx) (funcs : List Func) {i j : Nat} (h : i ≤ j) :
    entryOffset ctx funcs i ≤ entryOffset ctx funcs j := by
  have hsub : Sublist ((unlinked ctx funcs).take i) ((unlinked ctx funcs).take j) :=
    (take_prefix_take_left h).sublist
  exact (hsub.flatMap fun fc : FuncCode => fc.items).length_le

theorem debugEntries_getElem? (hf : s.funcs[j]? = some f) :
    s.program.debugEntries[j]? = some (s.located 0 j f).entry := by
  obtain ⟨pool, hcode⟩ := unlinked_getElem? s.ctx hf
  have hzip : (s.funcs.zip (unlinked s.ctx s.funcs))[j]? =
      some (f, genFunc s.ctx j (entryOffset s.ctx s.funcs j) pool f) :=
    getElem?_zip_eq_some.2 ⟨hf, hcode⟩
  rw [program_debugEntries, debugEntries, getElem?_map, hzip, Source.located, zero_add]
  rfl

theorem debugEntries_length (s : Source) : s.program.debugEntries.length = s.funcs.length := by
  rw [program_debugEntries, debugEntries, length_map, length_zip, unlinked_length, Nat.min_self]

/-- The debug entries of a program, and what the given functions are to them. -/
structure Maps (p : Program) (fns : Located → Prop) : Prop where
  sorted : Sorted p.debugEntries
  inside : ∀ e ∈ p.debugEntries, e.offset.toNat < p.code.length
  covers : ∀ fn, fns fn → Covers p.debugEntries fn.start fn.stop fn.entry
  stop : ∀ fn, fns fn → fn.stop ≤ p.code.length

/-- **A compiled program maps its functions.** -/
theorem maps_program (s : Source) (hsize : s.program.code.length ≤ 2 ^ 32) :
    Maps s.program fun fn => ∃ j f, s.funcs[j]? = some f ∧ fn = s.located 0 j f := by
  have hlt : ∀ i, entryOffset s.ctx s.funcs i < s.program.code.length := by
    intro i
    have := entryOffset_le s.ctx s.funcs i
    rw [program_length]
    omega
  -- the offsets fit in 32 bits, as the code does
  have hentry : ∀ i (hi : i < s.program.debugEntries.length),
      s.program.debugEntries[i].offset.toNat = entryOffset s.ctx s.funcs i := by
    intro i hi
    have hi' : i < s.funcs.length := debugEntries_length s ▸ hi
    have hget := debugEntries_getElem? (getElem?_eq_getElem hi')
    rw [getElem?_eq_getElem hi] at hget
    rw [Option.some.inj hget]
    have := hlt i
    simp only [Source.located, zero_add, UInt32.toNat_ofNat']
    omega
  refine ⟨?_, fun e he => ?_, ?_, ?_⟩
  · refine pairwise_iff_getElem.2 fun i j hi hj hij => ?_
    rw [UInt32.le_iff_toNat_le, hentry i hi, hentry j hj]
    exact entryOffset_mono s.ctx s.funcs hij.le
  · obtain ⟨i, hi, rfl⟩ := getElem_of_mem he
    rw [hentry i hi]
    exact hlt i
  · rintro _ ⟨j, f, hf, rfl⟩
    have hget := debugEntries_getElem? hf
    obtain ⟨hj, heq⟩ := List.getElem?_eq_some_iff.1 hget
    refine ⟨s.program.debugEntries.take j, s.program.debugEntries.drop (j + 1), ?_, ?_, ?_⟩
    · rw [← heq, getElem_cons_drop, take_append_drop]
    · rw [← heq, hentry j hj]
      simp [Source.located]
    · intro x hx
      obtain ⟨i, hi, rfl⟩ := getElem_of_mem hx
      rw [getElem_drop, hentry]
      simp only [Source.located, zero_add]
      exact entryOffset_mono s.ctx s.funcs (by omega)
  · rintro _ ⟨j, f, hf, rfl⟩
    simp only [Source.located, zero_add]
    exact (hlt (j + 1)).le

/-! ## Linking -/

variable {fns : Located → Prop} {l : LinkedProgram}

theorem shift_located (s : Source) (base j : Nat) (f : Func) :
    (s.located 0 j f).entry.shift (UInt32.ofNat base) = (s.located base j f).entry := by
  simp only [Source.located, DebugEntry.shift, zero_add, DebugEntry.mk.injEq, and_true]
  rw [← UInt32.ofNat_add, add_comm]

/-- **Linking a library** maps its functions behind those that are mapped already. -/
theorem Maps.link (h : Maps l.program fns) (s : Source) (exports : List ExportEntry) (id : String)
    (hsize : l.program.code.length + s.program.code.length ≤ 2 ^ 32) :
    Maps (linkLibrary l ⟨s.program, exports, id⟩).program fun fn => fns fn ∨
      ∃ j f, s.funcs[j]? = some f ∧ fn = s.located l.program.code.length j f := by
  have hlib := maps_program s (by omega)
  -- the library's offsets are shifted without wrapping
  have hfit : ∀ x ∈ s.program.debugEntries, l.program.code.length + x.offset.toNat < 2 ^ 32 := by
    intro x hx
    have := hlib.inside x hx
    omega
  have hlength : (linkLibrary l ⟨s.program, exports, id⟩).program.code.length =
      l.program.code.length + s.program.code.length := by
    simp [linkLibrary]
  refine ⟨?_, fun e he => ?_, ?_, ?_⟩
  · exact sorted_append h.sorted hlib.sorted (fun x hx => (h.inside x hx).le) hfit
  · rcases mem_append.1 he with he | he
    · have := h.inside e he
      omega
    · obtain ⟨x, hx, rfl⟩ := mem_map.1 he
      have := hlib.inside x hx
      rw [shift_offset (hfit x hx)]
      omega
  · rintro fn (hfn | ⟨j, f, hf, rfl⟩)
    · refine (h.covers fn hfn).left fun x hx => ?_
      obtain ⟨y, hy, rfl⟩ := mem_map.1 hx
      have := h.stop fn hfn
      rw [shift_offset (hfit y hy)]
      omega
    · have hcovers : Covers (linkLibrary l ⟨s.program, exports, id⟩).program.debugEntries _ _ _ :=
        (hlib.covers _ ⟨j, f, hf, rfl⟩).right hfit
      rw [shift_located] at hcovers
      simpa only [Source.located, zero_add] using hcovers
  · rintro fn (hfn | ⟨j, f, hf, rfl⟩)
    · have := h.stop fn hfn
      omega
    · have := hlib.stop _ ⟨j, f, hf, rfl⟩
      simp only [Source.located, zero_add] at this ⊢
      omega

theorem Maps.linkAll (h : Maps l.program fns) (libs : List SourceLibrary)
    (hsize : l.program.code.length + (libs.map (·.source.program.code.length)).sum ≤ 2 ^ 32) :
    Maps ((libs.map fun l => (⟨l.source.program, l.exports, l.id⟩ : Library)).foldl
      linkLibrary l).program fun fn => fns fn ∨
        LocatedIn l.program.code.length (libs.map (·.source)) fn := by
  induction libs generalizing l fns with
  | nil =>
    refine ⟨h.sorted, h.inside, ?_, ?_⟩
    · rintro fn (hfn | hfn)
      · exact h.covers fn hfn
      · cases hfn
    · rintro fn (hfn | hfn)
      · exact h.stop fn hfn
      · cases hfn
  | cons lib libs ih =>
    rw [map_cons, sum_cons] at hsize
    have hlength : (linkLibrary l ⟨lib.source.program, lib.exports, lib.id⟩).program.code.length =
        l.program.code.length + lib.source.program.code.length := by
      simp [linkLibrary]
    have hrest := ih (h.link lib.source lib.exports lib.id (by omega)) (by omega)
    rw [hlength] at hrest
    -- a function of the libraries is one of the first or of the later ones
    have hsplit : ∀ fn, fns fn ∨
        LocatedIn l.program.code.length (lib.source :: libs.map (·.source)) fn →
        (fns fn ∨ ∃ j f, lib.source.funcs[j]? = some f ∧
            fn = lib.source.located l.program.code.length j f) ∨
          LocatedIn (l.program.code.length + lib.source.program.code.length)
            (libs.map (·.source)) fn := by
      rintro fn (hfn | hfn)
      · exact .inl (.inl hfn)
      · cases hfn with
        | here hf => exact .inl (.inr ⟨_, _, hf, rfl⟩)
        | later hfn => exact .inr hfn
    exact ⟨hrest.sorted, hrest.inside, fun fn hfn => hrest.covers fn (hsplit fn hfn),
      fun fn hfn => hrest.stop fn (hsplit fn hfn)⟩

theorem maps_linkSources (main : Source) (libs : List SourceLibrary)
    (hsize : main.program.code.length + (libs.map (·.source.program.code.length)).sum ≤ 2 ^ 32) :
    Maps (linkSources main libs) (LocatedIn 0 (main :: libs.map (·.source))) := by
  have hmain := maps_program main (by omega)
  have hall := Maps.linkAll (l := ⟨main.program, []⟩) hmain libs hsize
  have hsplit : ∀ fn, LocatedIn 0 (main :: libs.map (·.source)) fn →
      (∃ j f, main.funcs[j]? = some f ∧ fn = main.located 0 j f) ∨
        LocatedIn main.program.code.length (libs.map (·.source)) fn := by
    intro fn hfn
    cases hfn with
    | here hf => exact .inl ⟨_, _, hf, rfl⟩
    | later hfn => exact .inr (by rwa [zero_add] at hfn)
  have hprogram : linkSources main libs =
      ((libs.map fun l => (⟨l.source.program, l.exports, l.id⟩ : Library)).foldl
        linkLibrary ⟨main.program, []⟩).program := by
    unfold linkSources linkPrograms
    split_ifs with hnil
    · rw [hnil]
      rfl
    · -- sorting changes nothing
      dsimp only
      rw [mergeSort_of_sorted hall.sorted]
  rw [hprogram]
  exact ⟨hall.sorted, hall.inside, fun fn hfn => hall.covers fn (hsplit fn hfn),
    fun fn hfn => hall.stop fn (hsplit fn hfn)⟩

/-- **Attribution.** In a program linked from compiled sources every offset is attributed to an
entry with the greatest offset not above it, to none just when there is no such entry, and an
offset in the code of a function to the entry of that function. -/
theorem lookup_attributed (main : Source) (libs : List SourceLibrary)
    (hsize : main.program.code.length + (libs.map (·.source.program.code.length)).sum ≤ 2 ^ 32)
    (ip : UInt32) : (∀ e, (linkSources main libs).lookupFunction ip = some e →
      e ∈ (linkSources main libs).debugEntries ∧ e.offset ≤ ip ∧
        ∀ x ∈ (linkSources main libs).debugEntries, x.offset ≤ ip → x.offset ≤ e.offset) ∧
    ((linkSources main libs).lookupFunction ip = none ↔
      ∀ x ∈ (linkSources main libs).debugEntries, ¬ x.offset ≤ ip) ∧
    ∀ fn, LocatedIn 0 (main :: libs.map (·.source)) fn → fn.start ≤ ip.toNat →
      ip.toNat < fn.stop → (linkSources main libs).lookupFunction ip = some fn.entry := by
  have hmaps := maps_linkSources main libs hsize
  refine ⟨fun e he => lookup_greatest hmaps.sorted he, lookup_eq_none_iff hmaps.sorted,
    fun fn hfn hstart hstop => ?_⟩
  exact (hmaps.covers fn hfn).lookup hmaps.sorted hstart hstop

def mainFunc : Func := ⟨"main", [], .void, [⟨"entry", [], .ret none⟩], none⟩

/-- A program whose first function has no code. -/
def emptyFirst : Source :=
  ⟨⟨[], [], ["skip", "main"]⟩, [⟨"skip", [], .void, [⟨"entry", [], .unreachable⟩], none⟩, mainFunc]⟩

theorem lookup_emptyFirst : (linkSources emptyFirst [⟨emptyFirst, [], "lib"⟩]).lookupFunction 0 =
    some (emptyFirst.located 0 1 mainFunc).entry :=
  (lookup_attributed emptyFirst [⟨emptyFirst, [], "lib"⟩] (by decide +kernel) 0).2.2 _
    (.here rfl) (by decide +kernel) (by decide +kernel)

end Arth.Codegen
