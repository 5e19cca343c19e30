import Arth.Vm.OpRoundtrip

/-!
# Bytecode round trip

`decodeProgram_encodeProgram`: a program whose instructions are all encodable and
whose counts and lengths fit in a `u32` decodes to itself, up to
`Program.dropEmptySources`: length 0 in the source-file field means none, so an empty
file name comes back as none. `readDebugEntry_reads` is the entry the empty name passes
through.
-/

namespace Arth

open ByteReader List Option

/-! ## Tables -/

theorem readString_reads {s : String} (h : (asBytes s).length < 2 ^ 32) :
    Reads readString (encodeString s) s :=
  (readU32_reads _).bind (readText_reads (toNat_ofNat_u32 h).symm _ _)

theorem readAsync_reads (e : Int64 × UInt32) : Reads readAsync (encodeAsync e) e := by
  have hlen : (encodeAsync e).length = 12 := by
    simp [encodeAsync, i64Le, u32Le, length_u64Le]
  have h := (reads_take (ε := DecodeError) (eof "async dispatch entry (12 bytes)" .asyncDispatch)
    hlen).map fun bs =>
      ((UInt64.ofNat (ofLe (bs.take 8))).toInt64, UInt32.ofNat (ofLe (bs.drop 8)))
  have ht : (encodeAsync e).take 8 = u64Le e.1.toUInt64 := by
    rw [encodeAsync, i64Le, take_left' (length_u64Le _)]
  have hd : (encodeAsync e).drop 8 = toLe 4 e.2.toNat := by
    rw [encodeAsync, i64Le, drop_left' (length_u64Le _), u32Le]
  rwa [ht, hd, ofLe_u64Le, ofLe_toLe 4 _ (by simpa using e.2.toNat_lt), UInt32.ofNat_toNat] at h

/-- What is left of a source file name once it is written: the empty name is none. -/
def dropEmptySource : Option String → Option String
  | some file => if file = "" then none else some file
  | none => none

def DebugEntry.dropEmptySource (e : DebugEntry) : DebugEntry :=
  { e with sourceFile := Arth.dropEmptySource e.sourceFile }

/-- A program with the empty source file names of its debug entries left out. -/
def Program.dropEmptySources (p : Program) : Program :=
  { p with debugEntries := p.debugEntries.map DebugEntry.dropEmptySource }

theorem readSourceFile_reads {o : Option String}
    (h : ∀ file, o = some file → (asBytes file).length < 2 ^ 32) :
    Reads readSourceFile (encodeSourceFile o) (dropEmptySource o) := by
  rcases o with - | file
  · exact Reads.bind (readU32_reads 0) (Reads.pure none)
  · refine Reads.bind (readU32_reads _) ?_
    rw [toNat_ofNat_u32 (h file rfl)]
    by_cases hf : file = ""
    · subst hf
      exact Reads.pure none
    · have hpos : 0 < (asBytes file).length :=
        length_pos_of_ne_nil fun he => hf (asBytes_eq_nil.1 he)
      rw [if_pos hpos, dropEmptySource, if_neg hf]
      exact (readText_reads rfl _ _).map some

/-- The lengths of a debug entry fit in a `u32`. -/
structure DebugEntry.Fits (e : DebugEntry) : Prop where
  functionName : (asBytes e.functionName).length < 2 ^ 32
  sourceFile : ∀ file, e.sourceFile = some file → (asBytes file).length < 2 ^ 32

theorem readDebugEntry_reads {e : DebugEntry} (h : e.Fits) :
    Reads readDebugEntry (encodeDebugEntry e) e.dropEmptySource := by
  have hname := readText_reads (toNat_ofNat_u32 h.functionName).symm
    "debug entry function name" .debugInfo
  have hline := (readU32_reads e.line).map fun line =>
    DebugEntry.mk e.offset e.functionName (dropEmptySource e.sourceFile) line
  simp only [encodeDebugEntry, encodeString, lenLe, append_assoc]
  refine Reads.bind (readU32_reads e.offset) ?_
  refine Reads.bind (readU32_reads _) ?_
  exact Reads.bind hname (Reads.bind (readSourceFile_reads h.sourceFile) hline)

/-- The counts and lengths of a program fit in a `u32`. -/
structure Program.Fits (p : Program) : Prop where
  stringCount : p.strings.length < 2 ^ 32
  strings : ∀ s ∈ p.strings, (asBytes s).length < 2 ^ 32
  codeCount : p.code.length < 2 ^ 32
  asyncCount : p.asyncDispatch.length < 2 ^ 32
  debugCount : p.debugEntries.length < 2 ^ 32
  debugEntries : ∀ e ∈ p.debugEntries, e.Fits

theorem readTable_reads {α β : Type} {r : Reader DecodeError β} {enc : α → List UInt8} {g : α → β}
    {as : List α} (hn : as.length < 2 ^ 32) (h : ∀ a ∈ as, Reads r (enc a) (g a)) :
    Reads (readTable r) (lenLe as.length ++ as.flatMap enc) (as.map g) := by
  refine Reads.bind (readU32_reads _) ?_
  rw [toNat_ofNat_u32 hn]
  exact Reads.many as h

theorem length_lenLe (n : Nat) : (lenLe n).length = 4 := length_toLe 4 _

theorem readOptTable_reads {α β : Type} {r : Reader DecodeError β} {enc : α → List UInt8}
    {g : α → β} {as : List α} (hn : as.length < 2 ^ 32) (h : ∀ a ∈ as, Reads r (enc a) (g a)) :
    Reads (readOptTable r) (lenLe as.length ++ as.flatMap enc) (as.map g) := by
  refine Reads.more (fun he => ?_) (readTable_reads hn h)
  have hz := congrArg length he
  rw [length_append, length_lenLe, length_nil] at hz
  omega

theorem encodeCode_some {ops : List Op} {code : List UInt8} (h : encodeCode ops = some code) :
    code = ops.flatMap (fun op => (encodeOp op).getD []) ∧
      ∀ op ∈ ops, Reads decodeOp ((encodeOp op).getD []) op := by
  induction ops generalizing code with
  | nil => cases h; simp
  | cons op ops ih =>
    simp only [encodeCode, bind_eq_bind, bind_eq_some_iff, Option.pure_def, some.injEq] at h
    obtain ⟨bs, hbs, rest, hrest, rfl⟩ := h
    obtain ⟨rfl, hops⟩ := ih hrest
    refine ⟨by rw [flatMap_cons, hbs, getD_some], fun x hx => ?_⟩
    rcases mem_cons.1 hx with rfl | hx
    · rw [hbs]; exact decodeOp_reads hbs
    · exact hops x hx

variable {p : Program}

theorem decodeBody_reads (hf : p.Fits) {code : List UInt8} (h : encodeCode p.code = some code) :
    Reads decodeBody ((lenLe p.strings.length ++ p.strings.flatMap encodeString) ++
      ((lenLe p.code.length ++ code) ++
        ((lenLe p.asyncDispatch.length ++ p.asyncDispatch.flatMap encodeAsync) ++
          (lenLe p.debugEntries.length ++ p.debugEntries.flatMap encodeDebugEntry))))
      p.dropEmptySources := by
  obtain ⟨rfl, hops⟩ := encodeCode_some h
  have hs := readTable_reads (g := id) hf.stringCount fun s hs => readString_reads (hf.strings s hs)
  have hc := readTable_reads (g := id) hf.codeCount hops
  have ha := readOptTable_reads (g := id) hf.asyncCount fun e _ => readAsync_reads e
  have hd := readOptTable_reads hf.debugCount fun e he => readDebugEntry_reads (hf.debugEntries e he)
  rw [List.map_id] at hs hc ha
  exact hs.bind (hc.bind (ha.bind (hd.map fun ds => Program.mk p.strings p.code p.asyncDispatch ds)))

theorem validateBytecodeHeader_magic (rest : List UInt8) :
    validateBytecodeHeader (magic ++ rest) = .ok bytecodeVersion := by
  have hlen : ¬ (magic ++ rest).length < 8 := by
    rw [length_append]; show ¬ 8 + _ < 8; omega
  have htake : (magic ++ rest).take 8 = magic := take_left' rfl
  rw [validateBytecodeHeader, if_neg hlen, htake]
  rfl

theorem decodeProgram_magic {body : List UInt8} (h : Reads decodeBody body p) :
    decodeProgram (magic ++ body) = .ok p := by
  have hbody := h magic []
  rw [append_nil] at hbody
  rw [decodeProgram, validateBytecodeHeader_magic, hbody]

theorem encodeProgram_reads {bytes : List UInt8} (hf : p.Fits) (h : encodeProgram p = some bytes) :
    ∃ body, bytes = magic ++ body ∧ Reads decodeBody body p.dropEmptySources := by
  simp only [encodeProgram, bind_eq_bind, bind_eq_some_iff, Option.pure_def, some.injEq] at h
  obtain ⟨code, hcode, rfl⟩ := h
  refine ⟨_, ?_, decodeBody_reads hf hcode⟩
  simp only [append_assoc]

/-- **Bytecode round trip.** A program that the encoder accepts and whose counts and
lengths fit in a `u32` comes back from the decoder, with empty source file names
turned into none. -/
theorem decodeProgram_encodeProgram {p : Program} {bytes : List UInt8} (hf : p.Fits)
    (h : encodeProgram p = some bytes) : decodeProgram bytes = .ok p.dropEmptySources := by
  obtain ⟨body, rfl, hbody⟩ := encodeProgram_reads hf h
  exact decodeProgram_magic hbody

/-- A program with one debug entry, whose source file is `file`. -/
def oneEntry (file : Option String) : Program :=
  { strings := [], code := [.halt], asyncDispatch := [(7, 0)],
    debugEntries := [{ offset := 0, functionName := "f", sourceFile := file, line := 1 }] }

theorem oneEntry_fits {file : Option String}
    (h : ∀ f, file = some f → (asBytes f).length < 2 ^ 32) : (oneEntry file).Fits where
  stringCount := by simp [oneEntry]
  strings := by simp [oneEntry]
  codeCount := by simp [oneEntry]
  asyncCount := by simp [oneEntry]
  debugCount := by simp [oneEntry]
  debugEntries := by
    intro e he
    rw [mem_singleton.1 he]
    exact ⟨by simp only []; decide, h⟩

theorem decodeProgram_encodeProgram_oneEntry :
    ∃ bytes, encodeProgram (oneEntry (some "a.arth")) = some bytes ∧
      decodeProgram bytes = .ok (oneEntry (some "a.arth")) := by
  have hf : (oneEntry (some "a.arth")).Fits := by
    refine oneEntry_fits fun f hf => ?_
    rw [← Option.some.inj hf]
    decide
  exact ⟨_, rfl, decodeProgram_encodeProgram hf rfl⟩

theorem decodeProgram_encodeProgram_ne :
    ¬ ∀ (p : Program) (bytes : List UInt8), p.Fits → encodeProgram p = some bytes →
      decodeProgram bytes = .ok p := by
  intro h
  have hf : (oneEntry (some "")).Fits := by
    refine oneEntry_fits fun f hf => ?_
    rw [← Option.some.inj hf]
    decide
  have hsame := h (oneEntry (some "")) _ hf rfl
  exact absurd (Except.ok.inj hsame) (by decide)

end Arth
