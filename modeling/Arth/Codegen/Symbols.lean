import Arth.Codegen.Mangle

/-!
# Which symbols name one function

A dot in a type or function name becomes an underscore in the symbol, so `a.b` and `a_b` are
one name to the linker.

* `alias_of_ambiguous` — a name with a dot, or with an underscore between two identifiers, has
  another name with the same symbol.
* `eq_of_encodeIdentifier` — every other name has its symbol to itself.
* `faithful_iff` — the symbol of a function stands for it alone, and reads back as its names,
  when none of its type and function names is of the first kind.
-/

namespace Arth.Mangle

open Arth.Ir PrefixCode List Option

variable {U : Char → Bool}

/-! ## Identifiers and paths -/

variable {c : Char}

theorem isAlphanumeric_of_continue (hc : isIdentContinue c = true) :
    (if isAlphanumeric U c then c else '_') = c := by
  simp only [isIdentContinue, Bool.or_eq_true, beq_iff_eq] at hc
  rcases hc with halnum | rfl
  · have hascii : c.toNat < 128 := by
      simp only [Char.isAlphanum, Char.isAlpha, Char.isUpper, Char.isLower, Char.isDigit,
        Bool.or_eq_true, Bool.and_eq_true, decide_eq_true_eq] at halnum
      simp only [UInt32.le_iff_toNat_le, ge_iff_le] at halnum
      simp at halnum
      omega
    simp [isAlphanumeric, hascii, halnum]
  · simp

@[simp] theorem sanitize_append (u v : Text) :
    sanitize U (u ++ v) = sanitize U u ++ sanitize U v := by
  simp [sanitize]

theorem sanitize_dot (v : Text) : sanitize U ('.' :: v) = '_' :: sanitize U v := by
  simp [sanitize, isAlphanumeric]

@[simp] theorem length_sanitize (w : Text) : (sanitize U w).length = w.length := by
  simp [sanitize]

variable {w : Text}

theorem sanitize_of_continue (hw : ∀ c ∈ w, isIdentContinue c = true) : sanitize U w = w := by
  have : w.map (fun c => if isAlphanumeric U c then c else '_') = w.map id :=
    map_congr_left fun c hc => isAlphanumeric_of_continue (hw c hc)
  simpa [sanitize] using this

theorem IsIdentifier.sanitize (h : IsIdentifier w) : sanitize U w = w :=
  sanitize_of_continue h.continue_

theorem IsIdentifier.noDot (h : IsIdentifier w) : '.' ∉ w := by
  intro hdot
  have := h.continue_ '.' hdot
  revert this
  decide

theorem IsIdentifier.isPath (h : IsIdentifier w) : IsPath w := by
  intro i hi
  rw [splitOn_eq_singleton h.noDot] at hi
  obtain rfl : i = w := by simpa using hi
  exact h

variable {u v : Text} {w w' : Text}

theorem isPath_append (hu : IsIdentifier u) (hv : IsPath v) : IsPath (u ++ '.' :: v) := by
  intro i hi
  rw [splitOn_append_cons_self_of_not_mem hu.noDot, mem_cons] at hi
  rcases hi with rfl | hi
  · exact hu
  · exact hv i hi

theorem splitOn_append (hu : IsIdentifier u) : (u ++ '.' :: v).splitOn '.' = u :: v.splitOn '.' :=
  splitOn_append_cons_self_of_not_mem hu.noDot v

theorem IsPath.one_or_more (h : IsPath w) :
    IsIdentifier w ∨ ∃ u v, w = u ++ '.' :: v ∧ IsIdentifier u ∧ IsPath v := by
  by_cases hdot : '.' ∈ w
  · right
    obtain ⟨u, v, rfl, hu⟩ := eq_append_cons_of_mem hdot
    have hsplit := splitOn_append_cons_self_of_not_mem hu v
    refine ⟨u, v, rfl, h u (by simp [hsplit]), fun i hi => h i (by simp [hsplit, hi])⟩
  · left
    have := splitOn_eq_singleton hdot
    exact h w (by simp [this])

/-- **Induction along a path.** -/
theorem IsPath.induct {motive : Text → Prop} (one : ∀ i, IsIdentifier i → motive i)
    (more : ∀ u v, IsIdentifier u → IsPath v → motive v → motive (u ++ '.' :: v))
    (h : IsPath w) : motive w := by
  induction hn : w.length using Nat.strong_induction_on generalizing w with
  | _ n ih =>
    rcases h.one_or_more with hone | ⟨u, v, rfl, hu, hv⟩
    · exact one w hone
    · refine more u v hu hv (ih v.length ?_ hv rfl)
      simp only [length_append, length_cons] at hn
      omega

/-- A text that the lexer could have in an identifier, keyword or not. -/
structure Plain (w : Text) : Prop where
  start : ∃ c ∈ w.head?, isIdentStart c = true
  continue_ : ∀ c ∈ w, isIdentContinue c = true

theorem IsIdentifier.plain (h : IsIdentifier w) : Plain w := ⟨h.start, h.continue_⟩

theorem sanitize_path (h : IsPath w) : Plain (sanitize U w) := by
  refine h.induct (motive := fun w => Plain (sanitize U w)) ?_ ?_
  · intro i hi
    rw [hi.sanitize]
    exact hi.plain
  · intro u v hu hv ih
    rw [sanitize_append, sanitize_dot, hu.sanitize]
    obtain ⟨c, hc, hstart⟩ := hu.start
    refine ⟨⟨c, ?_, hstart⟩, ?_⟩
    · rw [mem_def] at hc ⊢
      simp [head?_append, hc]
    · intro d hd
      simp only [mem_append, mem_cons] at hd
      rcases hd with hd | rfl | hd
      · exact hu.continue_ d hd
      · decide
      · exact ih.continue_ d hd

theorem isDigit_of_start (hc : isIdentStart c = true) : c.isDigit = false := by
  simp only [isIdentStart, Bool.or_eq_true, beq_iff_eq] at hc
  rcases hc with halpha | rfl
  · simp only [Char.isAlpha, Char.isUpper, Char.isLower, Bool.or_eq_true, Bool.and_eq_true,
      decide_eq_true_eq, UInt32.le_iff_toNat_le, ge_iff_le] at halpha
    simp only [Char.isDigit, Bool.and_eq_false_iff, decide_eq_false_iff_not,
      UInt32.le_iff_toNat_le, ge_iff_le]
    simp at halpha ⊢
    omega
  · decide

theorem Plain.framed (h : Plain w) : w ≠ [] ∧ NoDigit w := by
  obtain ⟨c, hc, hstart⟩ := h.start
  constructor
  · rintro rfl
    cases hc
  · intro d hd
    obtain rfl : c = d := mem_unique hc hd
    exact isDigit_of_start hstart

theorem utf8Size_of_continue (hc : isIdentContinue c = true) : c.utf8Size = 1 := by
  simp only [isIdentContinue, Bool.or_eq_true, beq_iff_eq] at hc
  rcases hc with halnum | rfl
  · simp only [Char.isAlphanum, Char.isAlpha, Char.isUpper, Char.isLower, Char.isDigit,
      Bool.or_eq_true, Bool.and_eq_true, decide_eq_true_eq, UInt32.le_iff_toNat_le,
      ge_iff_le] at halnum
    rw [Char.utf8Size_eq_one_iff, UInt32.le_iff_toNat_le]
    simp at halnum ⊢
    omega
  · decide

theorem Plain.byteLen (h : Plain w) : byteLen w = w.length := by
  have : w.map Char.utf8Size = w.map fun _ => 1 :=
    map_congr_left fun c hc => utf8Size_of_continue (h.continue_ c hc)
  simp [Mangle.byteLen, this]

theorem encodeIdentifier_path (h : IsPath w) : encodeIdentifier U w = frame (sanitize U w) := by
  simp only [encodeIdentifier, frame, (sanitize_path h).byteLen]

theorem sanitize_of_encodeIdentifier (h : IsPath w) (h' : IsPath w')
    (heq : encodeIdentifier U w = encodeIdentifier U w') : sanitize U w = sanitize U w' := by
  rw [encodeIdentifier_path h, encodeIdentifier_path h'] at heq
  exact congrArg Subtype.val (@frame_injective ⟨_, (sanitize_path h).framed⟩
    ⟨_, (sanitize_path h').framed⟩ heq)

theorem encodeIdentifier_prefixFree : PrefixFree IsPath (encodeIdentifier U) := by
  intro a b ha hb hpre
  rw [encodeIdentifier_path ha, encodeIdentifier_path hb] at hpre ⊢
  exact frame_prefixFree _ _ (sanitize_path ha).framed (sanitize_path hb).framed hpre

/-- No other path has the symbol of `w`: no dot becomes an underscore in it, and no underscore
in it could have been a dot. -/
def Unambiguous (w : Text) : Prop :=
  '.' ∉ w ∧ ∀ u v, w = u ++ '_' :: v → ¬ (IsIdentifier u ∧ IsIdentifier v)

theorem no_keyword_of_underscore (h : '_' ∈ w) : w ∉ keywords := by
  have : ∀ k ∈ keywords, '_' ∉ k := by decide
  exact fun hk => this w hk h

theorem sanitize_identifier (hu : IsIdentifier u) (hv : IsPath v) :
    IsIdentifier (sanitize U (u ++ '.' :: v)) := by
  have := sanitize_path (U := U) (isPath_append hu hv)
  refine ⟨this.start, this.continue_, no_keyword_of_underscore ?_⟩
  simp [sanitize_dot]

/-- **A path with a second reading** has another path of its length with the same symbol. -/
theorem alias_of_ambiguous (h : IsPath w) (hamb : ¬ Unambiguous w) :
    ∃ w', IsPath w' ∧ w' ≠ w ∧ sanitize U w' = sanitize U w := by
  rcases h.one_or_more with hone | ⟨u, v, rfl, hu, hv⟩
  · obtain ⟨u, v, rfl, hu, hv⟩ : ∃ u v, w = u ++ '_' :: v ∧ IsIdentifier u ∧ IsIdentifier v := by
      by_contra hnone
      exact hamb ⟨hone.noDot, fun u v heq huv => hnone ⟨u, v, heq, huv⟩⟩
    refine ⟨u ++ '.' :: v, isPath_append hu hv.isPath, by simp, ?_⟩
    rw [hone.sanitize, sanitize_append, sanitize_dot, hu.sanitize, hv.sanitize]
  · have hid := sanitize_identifier (U := U) hu hv
    refine ⟨_, hid.isPath, ?_, hid.sanitize⟩
    intro heq
    exact hid.noDot (by rw [heq]; simp)

/-- **The others have one reading.** -/
theorem eq_of_encodeIdentifier (h : IsPath w) (h' : IsPath w')
    (hw : Unambiguous w) (heq : encodeIdentifier U w' = encodeIdentifier U w) : w' = w := by
  have hone : IsIdentifier w := by
    rcases h.one_or_more with hone | ⟨u, v, rfl, -, -⟩
    · exact hone
    · exact absurd (by simp) hw.1
  have hsan := sanitize_of_encodeIdentifier h' h heq
  rw [hone.sanitize] at hsan
  rcases h'.one_or_more with hone' | ⟨u, v, rfl, hu, hv⟩
  · rw [← hsan, hone'.sanitize]
  · refine absurd ⟨hu, ?_⟩ (hw.2 u (sanitize U v) ?_)
    · rw [← hsan, sanitize_append, sanitize_dot, hu.sanitize]
    · rcases hv.one_or_more with hv' | ⟨u', v', rfl, hu', hv'⟩
      · rwa [hv'.sanitize]
      · exact sanitize_identifier hu' hv'

/-- Every struct and enum name in a type is in `Q`. -/
def Named (Q : Text → Prop) : Ty → Prop
  | .struct name => Q name.toList
  | .enum name => Q name.toList
  | .optional inner => Named Q inner
  | _ => True

theorem encodeIdentifier_head (w : Text) :
    ∃ d rest, encodeIdentifier U w = d :: rest ∧ d.isDigit = true := by
  have hne : Nat.toDigits 10 (byteLen (sanitize U w)) ≠ [] := Nat.toDigits_ne_nil
  obtain ⟨d, ds, hds⟩ := exists_cons_of_ne_nil hne
  refine ⟨d, ds ++ sanitize U w, by simp [encodeIdentifier, hds], ?_⟩
  exact isDigit_toDigits (byteLen (sanitize U w)) d (by rw [hds]; simp)

theorem encodeType_prefixFree : PrefixFree (Named IsPath) (encodeType U) := by
  intro a
  induction a with
  | optional inner ih =>
    intro b ha hb hpre
    cases b <;> simp only [encodeType, cons_prefix_cons, Char.reduceEq, false_and] at hpre
    rename_i inner'
    simp only [encodeType, ih inner' ha hb hpre.2]
  | struct | enum =>
    intro b ha hb hpre
    cases b <;> simp only [encodeType, cons_prefix_cons, Char.reduceEq, false_and] at hpre
    simp only [encodeType, encodeIdentifier_prefixFree _ _ ha hb hpre.2]
  | _ =>
    intro b ha hb hpre
    cases b <;> simp only [encodeType, cons_prefix_cons, Char.reduceEq, false_and] at hpre
    rfl

theorem eq_of_encodeType {a b : Ty} (ha : Named IsPath a) (hb : Named IsPath b)
    (hua : Named Unambiguous a) (heq : encodeType U b = encodeType U a) : b = a := by
  induction a generalizing b with
  | optional inner ih =>
    cases b <;> simp only [encodeType, cons.injEq, Char.reduceEq, false_and] at heq
    rename_i inner'
    rw [ih (b := inner') ha hb hua heq.2]
  | struct | enum =>
    cases b <;> simp only [encodeType, cons.injEq, Char.reduceEq, false_and] at heq
    rw [String.toList_injective (eq_of_encodeIdentifier ha hb hua heq.2)]
  | _ =>
    cases b <;> simp only [encodeType, cons.injEq, Char.reduceEq, false_and] at heq
    rfl

/-! ## Signatures -/

/-- What a symbol is made from; a method has a type. -/
structure Signature where
  modulePath : Text
  typeName : Option Text
  functionName : Text
  params : List Ty
  ret : Ty

def Signature.mangle (U : Char → Bool) (s : Signature) : Text :=
  match s.typeName with
  | none => mangleFunction U s.modulePath s.functionName s.params s.ret
  | some typeName => mangleMethod U s.modulePath typeName s.functionName s.params s.ret

/-- A dotted path of a length that a string can have. -/
def IsName (w : Text) : Prop := IsPath w ∧ w.length < 2 ^ 63

/-- The names of a signature are dotted paths; the module path may be empty. -/
structure Signature.WellFormed (s : Signature) : Prop where
  modulePath : s.modulePath ≠ [] → IsName s.modulePath
  typeName : ∀ t ∈ s.typeName, IsName t
  functionName : IsName s.functionName
  params : ∀ ty ∈ s.params, Named IsName ty
  ret : Named IsName s.ret

/-- No type or function name in the signature has a second reading. -/
structure Signature.Unambiguous (s : Signature) : Prop where
  typeName : ∀ t ∈ s.typeName, Mangle.Unambiguous t
  functionName : Mangle.Unambiguous s.functionName
  params : ∀ ty ∈ s.params, Named Mangle.Unambiguous ty
  ret : Named Mangle.Unambiguous s.ret

def encodeOwner (U : Char → Bool) : Option Text → Text
  | none => []
  | some typeName => 'M' :: encodeIdentifier U typeName

theorem mangle_eq (s : Signature) :
    s.mangle U = '_' :: 'A' :: ((segments s.modulePath).flatMap (encodeIdentifier U) ++
      (encodeOwner U s.typeName ++ 'F' :: (encodeIdentifier U s.functionName ++
        (s.params.flatMap (encodeType U) ++ (encodeReturn U s.ret ++ ['E']))))) := by
  cases s with
  | mk m t f ps r =>
    cases t <;> simp [Signature.mangle, mangleFunction, mangleMethod, encodeOwner, encodeModule]

variable {ty : Ty} {o o' : Option Text} {s t : Signature} {ps : List Ty} {n : Nat}

theorem Named.mono {Q Q' : Text → Prop} (h : ∀ w, Q w → Q' w) (hty : Named Q ty) : Named Q' ty := by
  induction ty with
  | struct | enum => exact h _ hty
  | optional inner ih => exact ih hty
  | _ => trivial

theorem Named.path (h : Named IsName ty) : Named IsPath ty := h.mono fun _ hw => hw.1

theorem segments_identifier (h : w ≠ [] → IsName w) :
    ∀ i ∈ segments w, IsIdentifier i ∧ i.length < 2 ^ 63 := by
  intro i hi
  unfold segments at hi
  split_ifs at hi with hne
  · cases hi
  · obtain ⟨hpath, hlen⟩ := h hne
    refine ⟨hpath i hi, lt_of_le_of_lt ?_ hlen⟩
    refine hpath.induct (motive := fun w => ∀ i ∈ w.splitOn '.', i.length ≤ w.length) ?_ ?_ i hi
    · intro j hj i hi
      rw [splitOn_eq_singleton hj.noDot, mem_singleton] at hi
      rw [hi]
    · intro u v hu _ ih i hi
      rw [splitOn_append hu, mem_cons] at hi
      rcases hi with rfl | hi
      · simp
      · have := ih i hi
        simp only [length_append, length_cons]
        omega

theorem segments_injective (h : segments w = segments w') : w = w' := by
  have hnil : ∀ v : Text, v ≠ [] → segments v ≠ [] := by
    intro v hv hseg
    simp only [segments, hv, if_false] at hseg
    exact splitOn_ne_nil '.' v hseg
  by_cases hz : w = []
  · by_contra hne
    exact hnil w' (fun h' => hne (by rw [hz, h'])) (by rw [← h, hz]; rfl)
  · by_cases hz' : w' = []
    · exact absurd (by rw [h, hz']; rfl) (hnil w hz)
    · simp only [segments, hz, hz', if_false] at h
      have := congrArg (['.'].intercalate ·) h
      simpa only [intercalate_splitOn] using this

theorem ends_segments (o : Option Text) (x : Text) :
    Ends IsPath (encodeIdentifier U) (encodeOwner U o ++ 'F' :: x) := by
  rintro a - ⟨y, hy⟩
  obtain ⟨d, rest, hd, hdigit⟩ := encodeIdentifier_head (U := U) a
  rw [hd, cons_append] at hy
  have hhead : d = 'F' ∨ d = 'M' := by
    cases o with
    | none => exact .inl (cons.inj hy).1
    | some t => exact .inr (cons.inj hy).1
  rcases hhead with rfl | rfl
  · cases hdigit
  · cases hdigit

theorem ends_params (r : Ty) : Ends (Named IsPath) (encodeType U) (encodeReturn U r ++ ['E']) := by
  rintro a - hpre
  unfold encodeReturn at hpre
  split at hpre
  · cases a <;> simp only [encodeType, nil_append, cons_prefix_cons, Char.reduceEq,
      false_and, true_and, prefix_nil] at hpre
    obtain ⟨d, rest, hd, -⟩ := encodeIdentifier_head (U := U) _
    rw [hd] at hpre
    cases hpre
  · cases a <;> simp only [encodeType, cons_append, cons_prefix_cons, Char.reduceEq,
      false_and] at hpre

/-- The written parts of two signatures agree one by one. -/
structure SameCode (U : Char → Bool) (s t : Signature) : Prop where
  modulePath : s.modulePath = t.modulePath
  typeName : encodeOwner U s.typeName = encodeOwner U t.typeName
  functionName : encodeIdentifier U s.functionName = encodeIdentifier U t.functionName
  params : s.params.map (encodeType U) = t.params.map (encodeType U)
  ret : encodeReturn U s.ret = encodeReturn U t.ret

theorem split_owner (h : ∀ t ∈ o, IsPath t) (h' : ∀ t ∈ o', IsPath t)
    {x y : Text} (heq : encodeOwner U o ++ 'F' :: x = encodeOwner U o' ++ 'F' :: y) :
    encodeOwner U o = encodeOwner U o' ∧ x = y := by
  cases o with
  | none =>
    cases o' with
    | none => exact ⟨rfl, (cons.inj heq).2⟩
    | some t' => exact absurd (cons.inj heq).1 (by decide)
  | some t =>
    cases o' with
    | none => exact absurd (cons.inj heq).1 (by decide)
    | some t' =>
      obtain ⟨hname, hrest⟩ := encodeIdentifier_prefixFree.split (h t rfl) (h' t' rfl)
        (cons.inj heq).2
      exact ⟨by simp only [encodeOwner, hname], (cons.inj hrest).2⟩

/-- **A symbol falls into its parts in one way.** -/
theorem sameCode_of_mangle (hs : s.WellFormed) (ht : t.WellFormed)
    (heq : s.mangle U = t.mangle U) : SameCode U s t := by
  simp only [mangle_eq, cons.injEq, true_and] at heq
  have hsegs := fun i hi => (segments_identifier hs.modulePath i hi).1
  have hsegt := fun i hi => (segments_identifier ht.modulePath i hi).1
  obtain ⟨hsegments, hrest⟩ := encodeIdentifier_prefixFree.flatMap (ends_segments _ _)
    (ends_segments _ _) (fun i hi => (hsegs i hi).isPath) (fun i hi => (hsegt i hi).isPath) heq
  obtain ⟨howner, hrest⟩ := split_owner (fun t ht => (hs.typeName t ht).1)
    (fun u hu => (ht.typeName u hu).1) hrest
  obtain ⟨hname, hrest⟩ :=
    encodeIdentifier_prefixFree.split hs.functionName.1 ht.functionName.1 hrest
  obtain ⟨hparams, hret⟩ := encodeType_prefixFree.flatMap (ends_params _) (ends_params _)
    (fun ty h => (hs.params ty h).path) (fun ty h => (ht.params ty h).path) hrest
  refine ⟨segments_injective ?_, howner, hname, hparams, append_cancel_right hret⟩
  -- the code of an identifier gives it back
  refine ext_getElem (by simpa using congrArg length hsegments) fun n h₁ h₂ => ?_
  have hn : (segments s.modulePath).map (encodeIdentifier U) =
      (segments t.modulePath).map (encodeIdentifier U) := hsegments
  have hcode : encodeIdentifier U (segments s.modulePath)[n] =
      encodeIdentifier U (segments t.modulePath)[n] := by
    have := congrArg (fun l => l[n]?) hn
    simpa [h₁, h₂] using this
  have hid := hsegs _ (getElem_mem h₁)
  have hid' := hsegt _ (getElem_mem h₂)
  have := sanitize_of_encodeIdentifier hid.isPath hid'.isPath hcode
  rwa [hid.sanitize, hid'.sanitize] at this

theorem eq_of_encodeReturn {r r' : Ty} (h : Named IsPath r) (h' : Named IsPath r')
    (hu : Named Mangle.Unambiguous r) (heq : encodeReturn U r' = encodeReturn U r) : r' = r := by
  unfold encodeReturn at heq
  split at heq <;> split at heq
  · rename_i hv' hv
    rw [hv, hv']
  · cases heq
  · cases heq
  · exact eq_of_encodeType h h' hu (cons.inj heq).2

theorem eq_of_encodeOwner (h : ∀ t ∈ o, IsPath t) (h' : ∀ t ∈ o', IsPath t)
    (hu : ∀ t ∈ o, Mangle.Unambiguous t) (heq : encodeOwner U o' = encodeOwner U o) : o' = o := by
  cases o with
  | none =>
    cases o' with
    | none => rfl
    | some t' => exact absurd heq (by simp [encodeOwner])
  | some t =>
    cases o' with
    | none => exact absurd heq (by simp [encodeOwner])
    | some t' =>
      rw [eq_of_encodeIdentifier (h t rfl) (h' t' rfl) (hu t rfl) (cons.inj heq).2]

theorem eq_of_encodeParams {qs : List Ty} (h : ∀ ty ∈ ps, Named IsPath ty)
    (h' : ∀ ty ∈ qs, Named IsPath ty) (hu : ∀ ty ∈ ps, Named Mangle.Unambiguous ty)
    (heq : qs.map (encodeType U) = ps.map (encodeType U)) : qs = ps := by
  induction ps generalizing qs with
  | nil => simpa using heq
  | cons p ps ih =>
    cases qs with
    | nil => cases heq
    | cons q qs =>
      obtain ⟨hhead, htail⟩ := cons.inj heq
      rw [eq_of_encodeType (h p (by simp)) (h' q (by simp)) (hu p (by simp)) hhead,
        ih (fun ty hty => h ty (by simp [hty])) (fun ty hty => h' ty (by simp [hty]))
          (fun ty hty => hu ty (by simp [hty])) htail]

/-- **An unambiguous signature has its symbol to itself.** -/
theorem eq_of_mangle (hs : s.WellFormed) (ht : t.WellFormed)
    (hu : s.Unambiguous) (heq : t.mangle U = s.mangle U) : t = s := by
  have hcode := sameCode_of_mangle ht hs heq
  have howner := eq_of_encodeOwner (fun u h => (hs.typeName u h).1)
    (fun u h => (ht.typeName u h).1) hu.typeName hcode.typeName
  have hname := eq_of_encodeIdentifier hs.functionName.1 ht.functionName.1 hu.functionName
    hcode.functionName
  have hparams := eq_of_encodeParams (fun ty h => (hs.params ty h).path)
    (fun ty h => (ht.params ty h).path) hu.params hcode.params
  have hret := eq_of_encodeReturn hs.ret.path ht.ret.path hu.ret hcode.ret
  have hmodule := hcode.modulePath
  cases s
  cases t
  simp only at hmodule howner hname hparams hret
  rw [hmodule, howner, hname, hparams, hret]

/-! ## Reading a symbol back -/

theorem parseIdentifier_frame (h : Plain w) (hlen : w.length < 2 ^ 64) (rest : Text) :
    parseIdentifier (frame w ++ rest) = (some w, rest) := by
  have hsplit := span_digits (isDigit_toDigits w.length) (h.framed.2.append h.framed.1 rest)
  have hfits : ¬ 2 ^ 64 ≤ w.length := not_le.2 hlen
  have hroom : w.length ≤ (w ++ rest).length := by simp
  rw [frame, append_assoc]
  simp only [parseIdentifier, hsplit.1, hsplit.2, Nat.toDigits_ne_nil, if_false,
    Nat.ofDigitChars_ten_toDigits]
  rw [if_neg hfits, if_pos hroom, take_left, drop_left]

theorem parseIdentifier_encode (h : IsName w) (rest : Text) :
    parseIdentifier (encodeIdentifier U w ++ rest) = (some (sanitize U w), rest) := by
  rw [encodeIdentifier_path h.1]
  refine parseIdentifier_frame (sanitize_path h.1) ?_ rest
  rw [length_sanitize]
  exact lt_of_lt_of_le h.2 (by norm_num)

theorem parseType_encode (h : Named IsName ty) (rest : Text) :
    ∃ t, parseType (encodeType U ty ++ rest) = (some t, rest) := by
  induction ty with
  | struct | enum => exact ⟨_, parseIdentifier_encode h rest⟩
  | optional inner ih =>
    obtain ⟨t, ht⟩ := ih h
    exact ⟨_, by simp only [encodeType, cons_append, parseType, ht, map_some]; rfl⟩
  | _ => exact ⟨_, rfl⟩

theorem parseModule_encode {ids : List Text} (h : ∀ i ∈ ids, IsIdentifier i ∧ i.length < 2 ^ 63)
    (hc : c = 'F' ∨ c = 'M') (rest : Text) (hfuel : ids.length ≤ n) :
    parseModule n (ids.flatMap (encodeIdentifier U) ++ c :: rest) = some (ids, c :: rest) := by
  induction ids generalizing n with
  | nil =>
    have hmark : c = 'F' ∨ c = 'M' ∨ c = 'T' := by
      rcases hc with rfl | rfl
      · exact .inl rfl
      · exact .inr (.inl rfl)
    cases n with
    | zero => rfl
    | succ n => simp [parseModule, hmark]
  | cons i ids ih =>
    obtain ⟨n, rfl⟩ : ∃ m, n = m + 1 := ⟨n - 1, by simp at hfuel; omega⟩
    obtain ⟨hid, hlen⟩ := h i (by simp)
    have hrest := ih (fun j hj => h j (by simp [hj])) (n := n) (by simp at hfuel; omega)
    have hread := parseIdentifier_encode (U := U) ⟨hid.isPath, hlen⟩
      (ids.flatMap (encodeIdentifier U) ++ c :: rest)
    obtain ⟨d, ds, hd, hdigit⟩ := encodeIdentifier_head (U := U) i
    rw [hid.sanitize, hd, cons_append] at hread
    have hmark : ¬ (d = 'F' ∨ d = 'M' ∨ d = 'T') := by
      rintro (rfl | rfl | rfl) <;> cases hdigit
    simp only [flatMap_cons, append_assoc, hd, cons_append, parseModule, hmark,
      if_false, hdigit, if_true, hread, hrest, map_some]

theorem parseParams_encode (h : ∀ ty ∈ ps, Named IsName ty) {rest : Text}
    (hrest : rest = [] ∨ ∃ cs, rest = 'R' :: cs) (hfuel : ps.length ≤ n) :
    ∃ ts, parseParams n (ps.flatMap (encodeType U) ++ rest) = (ts, rest) := by
  induction ps generalizing n with
  | nil =>
    cases n with
    | zero => exact ⟨[], rfl⟩
    | succ n => rcases hrest with rfl | ⟨cs, rfl⟩ <;> exact ⟨[], by simp [parseParams]⟩
  | cons p ps ih =>
    obtain ⟨n, rfl⟩ : ∃ m, n = m + 1 := ⟨n - 1, by simp at hfuel; omega⟩
    obtain ⟨ts, hts⟩ := ih (fun ty hty => h ty (by simp [hty])) (n := n) (by simp at hfuel; omega)
    obtain ⟨t, ht⟩ := parseType_encode (U := U) (h p (by simp)) (ps.flatMap (encodeType U) ++ rest)
    obtain ⟨c, cs, hcs, hc⟩ : ∃ c cs, encodeType U p = c :: cs ∧ c ≠ 'R' := by
      cases p <;> exact ⟨_, _, rfl, by decide⟩
    rw [hcs, cons_append] at ht
    refine ⟨t :: ts, ?_⟩
    simp only [flatMap_cons, append_assoc, hcs, cons_append, parseParams, hc, if_false, ht, hts]

theorem length_le_flatMap {α : Type*} {enc : α → Text} (h : ∀ a, enc a ≠ []) (as : List α) :
    as.length ≤ (as.flatMap enc).length := by
  induction as with
  | nil => simp
  | cons a as ih =>
    have := length_pos_iff.2 (h a)
    simp only [flatMap_cons, length_cons, length_append]
    omega

theorem encodeIdentifier_ne_nil (w : Text) : encodeIdentifier U w ≠ [] := by
  obtain ⟨d, rest, hd, -⟩ := encodeIdentifier_head (U := U) w
  simp [hd]

theorem encodeType_ne_nil (ty : Ty) : encodeType U ty ≠ [] := by
  cases ty <;> simp [encodeType]

theorem parseOwner_encode (h : ∀ t ∈ o, IsName t) (rest : Text) :
    parseOwner (encodeOwner U o ++ 'F' :: rest) = some (o.map (sanitize U), 'F' :: rest) := by
  cases o with
  | none => simp [encodeOwner, parseOwner]
  | some t =>
    have := parseIdentifier_encode (U := U) (h t rfl) ('F' :: rest)
    simp [encodeOwner, parseOwner, this]

theorem encodeReturn_cases (r : Ty) :
    encodeReturn U r = [] ∨ ∃ cs, encodeReturn U r = 'R' :: cs := by
  unfold encodeReturn
  split
  · exact .inl rfl
  · exact .inr ⟨_, rfl⟩

variable {s : Signature}

/-- **A symbol reads back** as its module path and its sanitized names. -/
theorem demangle_mangle (h : s.WellFormed) : ∃ params returnType, demangle (s.mangle U) =
      some ⟨segments s.modulePath, s.typeName.map (sanitize U),
        sanitize U s.functionName, params, returnType⟩ := by
  set code := s.params.flatMap (encodeType U) ++ encodeReturn U s.ret with hcode
  set callable := encodeIdentifier U s.functionName ++ code with hcallable
  set body := (segments s.modulePath).flatMap (encodeIdentifier U) ++
    (encodeOwner U s.typeName ++ 'F' :: callable) with hbody
  have hsymbol : s.mangle U = '_' :: 'A' :: (body ++ ['E']) := by
    rw [mangle_eq, hbody, hcallable, hcode]
    simp
  obtain ⟨params, hparams⟩ := parseParams_encode (U := U) h.params
    (encodeReturn_cases (U := U) s.ret) (n := code.length)
    (by
      have := length_le_flatMap (encodeType_ne_nil (U := U)) s.params
      rw [hcode, length_append]
      omega)
  have hmodule : parseModule body.length body =
      some (segments s.modulePath, encodeOwner U s.typeName ++ 'F' :: callable) := by
    have hfuel : (segments s.modulePath).length ≤ body.length := by
      have := length_le_flatMap (encodeIdentifier_ne_nil (U := U)) (segments s.modulePath)
      rw [hbody, length_append]
      omega
    cases ho : s.typeName with
    | none =>
      rw [ho] at hbody
      rw [hbody] at hfuel ⊢
      exact parseModule_encode (segments_identifier h.modulePath) (.inl rfl) _ hfuel
    | some t =>
      rw [ho] at hbody
      rw [hbody] at hfuel ⊢
      exact parseModule_encode (segments_identifier h.modulePath) (.inr rfl) _ hfuel
  refine ⟨params, parseReturn (encodeReturn U s.ret), ?_⟩
  have hname := parseIdentifier_encode (U := U) h.functionName code
  have hlast : ('A' :: (body ++ ['E'])).getLast? = some 'E' := by
    rw [← cons_append, getLast?_concat]
  rw [← hcode] at hparams
  simp [demangle, hsymbol, hlast, hmodule, parseOwner_encode h.typeName, parseCallable, hcallable,
    hname, hparams]

/-- A character that every linker takes. -/
def Linkable (c : Char) : Prop := c.isAlphanum = true ∨ c = '_'

theorem linkable_of_continue (hc : isIdentContinue c = true) : Linkable c := by
  unfold Linkable
  simpa only [isIdentContinue, Bool.or_eq_true, beq_iff_eq] using hc

theorem linkable_encodeIdentifier (h : IsPath w) : ∀ c ∈ encodeIdentifier U w, Linkable c := by
  intro c hc
  rw [encodeIdentifier_path h, frame, mem_append] at hc
  rcases hc with hdigit | hname
  · have : c.isDigit = true := isDigit_toDigits _ c hdigit
    exact .inl (by simp [Char.isAlphanum, this])
  · exact linkable_of_continue ((sanitize_path h).continue_ c hname)

theorem linkable_encodeType (h : Named IsPath ty) : ∀ c ∈ encodeType U ty, Linkable c := by
  induction ty with
  | struct | enum =>
    intro c hc
    rcases mem_cons.1 hc with rfl | hc
    · exact .inl (by decide)
    · exact linkable_encodeIdentifier h c hc
  | optional inner ih =>
    intro c hc
    rcases mem_cons.1 hc with rfl | hc
    · exact .inl (by decide)
    · exact ih h c hc
  | _ =>
    intro c hc
    obtain rfl := mem_singleton.1 hc
    exact .inl (by decide)

theorem linkable_mangle (h : s.WellFormed) : ∀ c ∈ s.mangle U, Linkable c := by
  intro c hc
  simp only [mangle_eq, mem_cons, mem_append, mem_flatMap, not_mem_nil, or_false] at hc
  rcases hc with rfl | rfl | ⟨i, hi, hc⟩ | hc | rfl | hc | ⟨ty, hty, hc⟩ | hc | rfl
  · exact .inr rfl
  · exact .inl (by decide)
  · exact linkable_encodeIdentifier (segments_identifier h.modulePath i hi).1.isPath c hc
  · cases ho : s.typeName with
    | none => exact absurd hc (by simp [ho, encodeOwner])
    | some t =>
      rw [ho] at hc
      rcases mem_cons.1 hc with rfl | hc
      · exact .inl (by decide)
      · exact linkable_encodeIdentifier (h.typeName t (by simp [ho])).1 c hc
  · exact .inl (by decide)
  · exact linkable_encodeIdentifier h.functionName.1 c hc
  · exact linkable_encodeType (h.params ty hty).path c hc
  · unfold encodeReturn at hc
    split at hc
    · cases hc
    · rcases mem_cons.1 hc with rfl | hc
      · exact .inl (by decide)
      · exact linkable_encodeType h.ret.path c hc
  · exact .inl (by decide)

/-! ## Signatures with another reading -/

theorem alias_name (h : IsName w) (hamb : ¬ Unambiguous w) :
    ∃ w', IsName w' ∧ w' ≠ w ∧ encodeIdentifier U w' = encodeIdentifier U w := by
  obtain ⟨w', hpath, hne, hsan⟩ := alias_of_ambiguous (U := U) h.1 hamb
  have hlen : w'.length = w.length := by
    rw [← length_sanitize (U := U) w', hsan, length_sanitize]
  refine ⟨w', ⟨hpath, by rw [hlen]; exact h.2⟩, hne, ?_⟩
  rw [encodeIdentifier_path hpath, encodeIdentifier_path h.1, hsan]

theorem alias_type (h : Named IsName ty) (hamb : ¬ Named Unambiguous ty) :
    ∃ ty', Named IsName ty' ∧ ty' ≠ ty ∧ encodeType U ty' = encodeType U ty ∧
      encodeReturn U ty' = encodeReturn U ty := by
  induction ty with
  | struct name =>
    obtain ⟨w, hw, hne, hcode⟩ := alias_name (U := U) h hamb
    refine ⟨.struct (String.ofList w), by simpa [Named] using hw, ?_, ?_, ?_⟩
    · rintro heq
      exact hne (by rw [← Ty.struct.inj heq, String.toList_ofList])
    · simp [encodeType, hcode]
    · simp [encodeReturn, encodeType, hcode]
  | enum name =>
    obtain ⟨w, hw, hne, hcode⟩ := alias_name (U := U) h hamb
    refine ⟨.enum (String.ofList w), by simpa [Named] using hw, ?_, ?_, ?_⟩
    · rintro heq
      exact hne (by rw [← Ty.enum.inj heq, String.toList_ofList])
    · simp [encodeType, hcode]
    · simp [encodeReturn, encodeType, hcode]
  | optional inner ih =>
    obtain ⟨ty', hty', hne, hcode, -⟩ := ih h hamb
    refine ⟨.optional ty', hty', fun heq => hne (Ty.optional.inj heq), ?_, ?_⟩
    · simp [encodeType, hcode]
    · simp [encodeReturn, encodeType, hcode]
  | _ => exact absurd trivial hamb

theorem alias_params (h : ∀ ty ∈ ps, Named IsName ty) (hty : ty ∈ ps)
    (hamb : ¬ Named Unambiguous ty) : ∃ qs, (∀ ty ∈ qs, Named IsName ty) ∧ qs ≠ ps ∧
      qs.flatMap (encodeType U) = ps.flatMap (encodeType U) := by
  obtain ⟨as, bs, rfl⟩ := append_of_mem hty
  obtain ⟨ty', hty', hne, hcode, -⟩ := alias_type (U := U) (h ty hty) hamb
  refine ⟨as ++ ty' :: bs, ?_, ?_, by simp [hcode]⟩
  · intro t ht
    simp only [mem_append, mem_cons] at ht
    rcases ht with ht | rfl | ht
    · exact h t (by simp [ht])
    · exact hty'
    · exact h t (by simp [ht])
  · intro heq
    exact hne (cons.inj (append_cancel_left heq)).1

/-- The symbol of a function stands for it alone, is made of letters, digits and underscores,
and reads back as the names of the function. -/
structure Faithful (U : Char → Bool) (s : Signature) : Prop where
  alone : ∀ t : Signature, t.WellFormed → t.mangle U = s.mangle U → t = s
  linkable : ∀ c ∈ s.mangle U, Linkable c
  readable : ∃ d, demangle (s.mangle U) = some d ∧ d.modulePath = segments s.modulePath ∧
    d.typeName = s.typeName ∧ d.functionName = s.functionName

theorem unambiguous_of_alone (h : s.WellFormed)
    (halone : ∀ t : Signature, t.WellFormed → t.mangle U = s.mangle U → t = s) : s.Unambiguous := by
  constructor
  · intro t ht
    by_contra hamb
    obtain ⟨t', ht', hne, hcode⟩ := alias_name (U := U) (h.typeName t ht) hamb
    have hs : s.typeName = some t := ht
    have := halone { s with typeName := some t' }
      ⟨h.modulePath, by rintro u ⟨⟩; exact ht', h.functionName, h.params, h.ret⟩
      (by simp [mangle_eq, hs, encodeOwner, hcode])
    have := congrArg Signature.typeName this
    exact hne (some.inj (this.trans hs))
  · by_contra hamb
    obtain ⟨w, hw, hne, hcode⟩ := alias_name (U := U) h.functionName hamb
    have := halone { s with functionName := w }
      ⟨h.modulePath, h.typeName, hw, h.params, h.ret⟩ (by simp [mangle_eq, hcode])
    exact hne (congrArg Signature.functionName this)
  · intro ty hty
    by_contra hamb
    obtain ⟨qs, hqs, hne, hcode⟩ := alias_params (U := U) h.params hty hamb
    have := halone { s with params := qs }
      ⟨h.modulePath, h.typeName, h.functionName, hqs, h.ret⟩ (by simp [mangle_eq, hcode])
    exact hne (congrArg Signature.params this)
  · by_contra hamb
    obtain ⟨r, hr, hne, -, hcode⟩ := alias_type (U := U) h.ret hamb
    have := halone { s with ret := r }
      ⟨h.modulePath, h.typeName, h.functionName, h.params, hr⟩ (by simp [mangle_eq, hcode])
    exact hne (congrArg Signature.ret this)

theorem sanitize_of_unambiguous (h : IsPath w) (hu : Unambiguous w) : sanitize U w = w := by
  rcases h.one_or_more with hone | ⟨u, v, rfl, -, -⟩
  · exact hone.sanitize
  · exact absurd (by simp) hu.1

/-- **Exactly the signatures whose type and function names hold no dot, and no underscore that
could be one, have a faithful symbol.** -/
theorem faithful_iff {s : Signature} (h : s.WellFormed) : Faithful U s ↔ s.Unambiguous := by
  constructor
  · intro hf
    exact unambiguous_of_alone h hf.alone
  · intro hu
    refine ⟨fun t ht heq => eq_of_mangle h ht hu heq, linkable_mangle h, ?_⟩
    obtain ⟨params, returnType, hread⟩ := demangle_mangle (U := U) h
    refine ⟨_, hread, rfl, ?_, sanitize_of_unambiguous h.functionName.1 hu.functionName⟩
    cases ho : s.typeName with
    | none => rfl
    | some t =>
      have hname : t ∈ s.typeName := by simp [ho]
      exact congrArg some (sanitize_of_unambiguous (h.typeName t hname).1 (hu.typeName t hname))

/-- `String app.utils.format(String)`. -/
def formatSignature : Signature where
  modulePath := "app.utils".toList
  typeName := none
  functionName := "format".toList
  params := [.string]
  ret := .string

theorem formatSignature_wellFormed : formatSignature.WellFormed where
  modulePath := fun _ => ⟨by decide, by decide⟩
  typeName := by rintro t ⟨⟩
  functionName := ⟨by decide, by decide⟩
  params := by
    intro ty hty
    obtain rfl := mem_singleton.1 hty
    trivial
  ret := trivial

theorem unambiguous_of_noUnderscore (hdot : '.' ∉ w) (h : '_' ∉ w) : Unambiguous w := by
  refine ⟨hdot, ?_⟩
  rintro u v rfl -
  exact h (by simp)

theorem faithful_format : Faithful (fun _ => true) formatSignature := by
  refine (faithful_iff formatSignature_wellFormed).2 ⟨?_, ?_, ?_, trivial⟩
  · rintro t ⟨⟩
  · exact unambiguous_of_noUnderscore (by decide) (by decide)
  · intro ty hty
    obtain rfl := List.mem_singleton.1 hty
    trivial

/-- `void area(p)` for one type of `p`. -/
def areaOf (typeName : String) : Signature where
  modulePath := []
  typeName := none
  functionName := "area".toList
  params := [.struct typeName]
  ret := .void

theorem isName_area : IsName "area".toList := ⟨by decide, by decide⟩

theorem areaOf_wellFormed {typeName : String} (h : IsName typeName.toList) :
    (areaOf typeName).WellFormed where
  modulePath := fun hne => absurd rfl hne
  typeName := by rintro t ⟨⟩
  functionName := isName_area
  params := by
    intro ty hty
    obtain rfl := mem_singleton.1 hty
    exact h
  ret := trivial

/-- **Two types, one symbol**: `Point` of the package `geo`, and `geo_Point`. -/
theorem area_unfaithful : (areaOf "geo.Point").WellFormed ∧ (areaOf "geo_Point").WellFormed ∧
    areaOf "geo.Point" ≠ areaOf "geo_Point" ∧
    (areaOf "geo.Point").mangle (fun _ => true) = "_AF4areaS9geo_PointE".toList ∧
    (areaOf "geo_Point").mangle (fun _ => true) = "_AF4areaS9geo_PointE".toList := by
  refine ⟨areaOf_wellFormed ⟨by decide, by decide⟩, areaOf_wellFormed ⟨by decide, by decide⟩,
    ?_, by decide, by decide⟩
  intro heq
  have := congrArg Signature.params heq
  revert this
  decide

end Arth.Mangle
