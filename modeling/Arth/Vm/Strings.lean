import Arth.Vm.Machine
import Arth.Lib.Occurrences

/-!
# String indices

The string instructions of the interpreter and the string methods `Op::CallSymbol` handles
itself. Lengths, substrings and single characters count characters; a search answers with
the byte at which it found something.

* `oneUnit_iff` — a search result is an index of the other operations if and only if what
  lies before the first occurrence is ASCII.
-/

namespace Arth

open List

open Occurrences (firstAt occursAt splitAll replaceAll)

variable {W : Type}

/-- `n as usize`. -/
def asUsize (n : Int64) : Nat := n.toUInt64.toNat

/-- `&chars[a..b]`, which panics unless `a ≤ b` and `b` is within bounds. -/
def sliceChars (chars : List Char) (a b : Nat) : Option (List Char) :=
  if a ≤ b ∧ b ≤ chars.length then some ((chars.drop a).take (b - a)) else none

/-- `str::find`: the byte at which the first match begins. -/
def strFind (s t : String) : Option Nat :=
  (firstAt t.toList s.toList).map fun k => String.utf8Len (s.toList.take k)

/-- `str::split`; an empty pattern matches at every boundary of a character. -/
def strSplit (s t : String) : List String :=
  if t = "" then "" :: s.toList.map String.singleton ++ [""]
  else (splitAll t.toList s.toList).map String.ofList

/-- `str::replace`. -/
def strReplace (s old new : String) : String :=
  if old = "" then .ofList (new.toList ++ s.toList.flatMap fun c => c :: new.toList)
  else .ofList (replaceAll old.toList new.toList s.toList)

/-! ## The instructions -/

/-- What a string instruction does with its operands: it pushes a value or a new list of
parts, stops with a code, or aborts the interpreter. -/
inductive StrOutcome where
  | value (v : Value)
  | parts (ps : List String)
  | failed (code : Int)
  | abort
  deriving DecidableEq

/-- A string operand: `Value::Str`, or an index into the string table. -/
def Program.text (p : Program) : Value → String
  | .str s => s
  | .i64 ix => (p.strings[asUsize ix]?).getD ""
  | _ => ""

def substringOf (s : String) (start stop : Int64) : StrOutcome :=
  let chars := s.toList
  let start := start.toInt.toNat
  let stop := stop.toInt.toNat
  if start < chars.length then
    match sliceChars chars start (min stop chars.length) with
    | some cs => .value (.str (.ofList cs))
    | none => .abort
  else .value (.str "")

def indexOfValue (s t : String) : StrOutcome :=
  .value (.i64 (((strFind s t).map Int64.ofNat).getD (-1)))

def charCount (s : String) : Int64 := .ofNat s.toList.length

/-- `Op::StrCharAt`: an index out of bounds is an Arth panic. -/
def charAtOp (s : String) (ix : Int64) : StrOutcome :=
  if ix < 0 ∨ s.toList.length ≤ asUsize ix then .failed 2
  else
    match s.toList[asUsize ix]? with
    | some c => .value (.i64 (.ofNat c.toNat))
    | none => .abort

/-- The string instructions that count or search, on the operands they popped, the last one
first. -/
def evalStr (p : Program) : Op → List Value → StrOutcome
  | .strLen, [s] => .value (.i64 (charCount (p.text s)))
  | .strSubstring, [.i64 stop, .i64 start, s] => substringOf (p.text s) start stop
  | .strIndexOf, [search, s] => indexOfValue (p.text s) (p.text search)
  | .strSplit, [delimiter, s] => .parts (strSplit (p.text s) (p.text delimiter))
  | .strReplace, [new, old, s] => .value (.str (strReplace (p.text s) (p.text old) (p.text new)))
  | .strCharAt, [.i64 ix, s] => charAtOp (p.text s) ix
  | _, _ => .failed 1

/-- A string instruction on the stack of a state. -/
def strOp (p : Program) (op : Op) (m : State W) : StrOutcome :=
  match op.sig with
  | none => .failed 1
  | some sg =>
    match popOperands sg.operands m.stack with
    | .taken args _ => evalStr p op args
    | .aborted v _ => .value v
    | .failed => .failed 1

/-- An index operand; `floatIndex` is `f as usize`. -/
def indexOperand (floatIndex : F64 → Nat) : Value → Nat
  | .i64 n => asUsize n
  | .f64 x => floatIndex x
  | _ => 0

def substringMethod (s : String) (start stop : Nat) : StrOutcome :=
  let chars := s.toList
  let start := min start chars.length
  let stop := min stop chars.length
  match if start ≤ stop then sliceChars chars start stop else sliceChars chars stop start with
  | some cs => .value (.str (.ofList cs))
  | none => .abort

def charAtMethod (s : String) (index : Nat) : StrOutcome :=
  .value (.str (((s.toList[index]?).map String.singleton).getD ""))

def evalMethod (floatIndex : F64 → Nat) : String → List Value → StrOutcome
  | "s.charAt", [ix, .str s] => charAtMethod s (indexOperand floatIndex ix)
  | "s.length", [.str s] => .value (.i64 (charCount s))
  | "s.indexOf", [.str search, .str s] => indexOfValue s search
  | "s.substring", [stop, start, .str s] =>
    substringMethod s (indexOperand floatIndex start) (indexOperand floatIndex stop)
  | _, _ => .failed 1

/-- A string method on the stack of a state. -/
def strMethod (floatIndex : F64 → Nat) (name : String) (m : State W) : StrOutcome :=
  match builtinOperands name with
  | none => .failed 1
  | some os =>
    match popOperands (if name = "s.charAt" then charAtFallback m os else os) m.stack with
    | .taken args _ => evalMethod floatIndex name args
    | .aborted v _ => .value v
    | .failed => .failed 1

/-- The four operations on indices, in one of the forms the interpreter has them. -/
structure IndexForms where
  length : String → StrOutcome
  indexOf : String → String → StrOutcome
  substring : String → Int64 → Int64 → StrOutcome
  charAt : String → Int64 → StrOutcome

def State.on (m : State W) (vs : List Value) : State W := { m with stack := vs ++ m.stack }

/-- The instructions, on their operands over any stack. -/
def opForms (p : Program) (m : State W) : IndexForms where
  length s := strOp p .strLen (m.on [.str s])
  indexOf s t := strOp p .strIndexOf (m.on [.str t, .str s])
  substring s a b := strOp p .strSubstring (m.on [.i64 b, .i64 a, .str s])
  charAt s i := strOp p .strCharAt (m.on [.i64 i, .str s])

/-- The methods, on their operands over any stack. -/
def methodForms (floatIndex : F64 → Nat) (m : State W) : IndexForms where
  length s := strMethod floatIndex "s.length" (m.on [.str s])
  indexOf s t := strMethod floatIndex "s.indexOf" (m.on [.str t, .str s])
  substring s a b := strMethod floatIndex "s.substring" (m.on [.i64 b, .i64 a, .str s])
  charAt s i := strMethod floatIndex "s.charAt" (m.on [.i64 i, .str s])

/-- What an index `i` found for a string `t` of length `n` means to the other operations. -/
structure IndexForms.Finds (F : IndexForms) (s t : String) (i n : Int64) : Prop where
  substring : 0 ≤ i → F.substring s i (i + n) = .value (.str t)
  least : 0 ≤ i → ∀ j, 0 ≤ j → j < i → F.substring s j (j + n) ≠ .value (.str t)
  charAt : 0 ≤ i → ∀ k, 0 ≤ k → k < n → F.charAt s (i + k) = F.charAt t k
  absent : i = -1 ↔ ¬ t.toList <:+: s.toList

def IndexForms.OneUnit (F : IndexForms) (s t : String) : Prop :=
  ∃ i n, F.indexOf s t = .value (.i64 i) ∧ F.length t = .value (.i64 n) ∧ F.Finds s t i n

/-- Splitting cuts where the search finds something, the parts joined again are the string,
and replacing joins them with something else. -/
def SplitsAtIndex (p : Program) (m : State W) (s t : String) : Prop :=
  let F := opForms p m
  let split s := strOp p .strSplit (m.on [.str t, .str s])
  ∃ i n len parts, F.indexOf s t = .value (.i64 i) ∧ F.length t = .value (.i64 n) ∧
    F.length s = .value (.i64 len) ∧ split s = .parts parts ∧
    (i = -1 → parts = [s]) ∧
    (0 ≤ i → ∃ first rest, parts = first :: rest ∧ F.substring s 0 i = .value (.str first) ∧
      (t ≠ "" → ∃ left, F.substring s (i + n) len = .value (.str left) ∧
        split left = .parts rest)) ∧
    t.intercalate parts = s ∧
    ∀ u, strOp p .strReplace (m.on [.str u, .str t, .str s]) =
      .value (.str (u.intercalate parts))

/-- What lies before the first occurrence of `t` in `s`, if there is one, is ASCII. -/
def AsciiBefore (s t : String) : Prop :=
  ∀ pre post, s.toList = pre ++ t.toList ++ post →
    (∀ pre' post', s.toList = pre' ++ t.toList ++ post' → pre.length ≤ pre'.length) →
    ∀ c ∈ pre, c.val ≤ 127

theorem length_le_utf8Len (cs : List Char) : cs.length ≤ String.utf8Len cs := by
  induction cs with
  | nil => simp
  | cons c cs ih =>
    have hpos := c.utf8Size_pos
    simp only [length_cons, String.utf8Len_cons]
    omega

theorem utf8Len_eq_length_iff (cs : List Char) :
    String.utf8Len cs = cs.length ↔ ∀ c ∈ cs, c.val ≤ 127 := by
  induction cs with
  | nil => simp
  | cons c cs ih =>
    have hpos := c.utf8Size_pos
    have hle := length_le_utf8Len cs
    rw [forall_mem_cons, ← ih, ← Char.utf8Size_eq_one_iff, length_cons, String.utf8Len_cons]
    omega

variable {s t : String} {k : Nat}

theorem asciiBefore_iff (hk : firstAt t.toList s.toList = some k) :
    AsciiBefore s t ↔ ∀ c ∈ s.toList.take k, c.val ≤ 127 := by
  obtain ⟨hle, -, hmin⟩ := Occurrences.firstAt_eq_some_iff.1 hk
  have hsplit := Occurrences.firstAt_split hk
  -- an occurrence after `pre` is one at the length of `pre`
  have hat : ∀ pre post, s.toList = pre ++ t.toList ++ post → k ≤ pre.length := by
    intro pre post heq
    by_contra hlt
    refine hmin pre.length (by omega) (Occurrences.occursAt_iff.2 ?_)
    simp [heq]
  have hlen : (s.toList.take k).length = k := by simp [hle]
  constructor
  · intro h
    exact h _ _ hsplit fun pre' post' heq => hlen.trans_le (hat pre' post' heq)
  · intro h pre post heq hfirst
    have hpre : pre.length = k :=
      le_antisymm ((hfirst _ _ hsplit).trans_eq hlen) (hat pre post heq)
    have htake : s.toList.take k = pre := by
      rw [heq, append_assoc, ← hpre, take_left]
    exact htake ▸ h

theorem asciiBefore_of_absent (h : firstAt t.toList s.toList = none) : AsciiBefore s t := by
  intro pre post heq
  exact absurd ⟨pre, post, heq.symm⟩ (Occurrences.firstAt_eq_none_iff.1 h)

/-- A Rust string has at most `isize::MAX` bytes. -/
def Fits (s : String) : Prop := String.utf8Len s.toList < 2 ^ 63

instance : Decidable (Fits s) := inferInstanceAs (Decidable (_ < _))

theorem Fits.length_lt (h : Fits s) : s.toList.length < 2 ^ 63 :=
  (length_le_utf8Len _).trans_lt h

theorem asUsize_ofNat (h : k < 2 ^ 63) : asUsize (.ofNat k) = k := by
  rw [asUsize, Int64.toUInt64_ofNat', UInt64.toNat_ofNat_of_lt']
  exact h.trans (by decide)

theorem exists_ofNat_lt {j : Int64} (h0 : 0 ≤ j) (hj : j < .ofNat k) (hk : k < 2 ^ 63) :
    ∃ n < k, j = .ofNat n := by
  refine ⟨j.toNatClampNeg, ?_, (Int64.ofNat_toNatClampNeg j h0).symm⟩
  rw [Int64.lt_iff_toInt_lt, Int64.toInt_ofNat_of_lt hk] at hj
  have hj0 := Int64.le_iff_toInt_le.1 h0
  rw [Int64.toInt_zero] at hj0
  change j.toInt.toNat < k
  omega

theorem sliceChars_of_le {cs : List Char} {n : Nat} (h : k + n ≤ cs.length) :
    sliceChars cs k (k + n) = some ((cs.drop k).take n) := by
  rw [sliceChars, if_pos ⟨Nat.le_add_right k n, h⟩, Nat.add_sub_cancel_left]

/-- What the four operations compute on indices within the string. -/
structure IndexForms.Counts (F : IndexForms) (char : Char → StrOutcome) : Prop where
  length : ∀ s, F.length s = .value (.i64 (.ofNat s.toList.length))
  indexOf : ∀ s t, F.indexOf s t = indexOfValue s t
  substring : ∀ s a n, Fits s → a + n ≤ s.toList.length →
    F.substring s (.ofNat a) (.ofNat (a + n)) = .value (.str (.ofList ((s.toList.drop a).take n)))
  charAt : ∀ s k c, Fits s → s.toList[k]? = some c → F.charAt s (.ofNat k) = char c

theorem opForms_counts (p : Program) (m : State W) :
    (opForms p m).Counts fun c => .value (.i64 (.ofNat c.toNat)) where
  length _ := rfl
  indexOf _ _ := rfl
  substring s a n hs h := by
    have hlen := hs.length_lt
    change substringOf s (.ofNat a) (.ofNat (a + n)) = _
    rw [substringOf, Int64.toInt_ofNat_of_lt (by omega), Int64.toInt_ofNat_of_lt (by omega)]
    simp only [Int.toNat_natCast]
    split
    · rw [min_eq_left h, sliceChars_of_le h]
    · obtain rfl : n = 0 := by omega
      simp
  charAt s k c hs h := by
    have hlen := hs.length_lt
    obtain ⟨hk, -⟩ := List.getElem?_eq_some_iff.1 h
    have hneg : ¬ Int64.ofNat k < 0 := by
      rw [Int64.lt_iff_toInt_lt, Int64.toInt_ofNat_of_lt (by omega)]
      simp
    change charAtOp s (.ofNat k) = _
    rw [charAtOp, asUsize_ofNat (by omega), if_neg (not_or.2 ⟨hneg, by omega⟩), h]

theorem methodForms_counts (floatIndex : F64 → Nat) (m : State W) :
    (methodForms floatIndex m).Counts fun c => .value (.str (.singleton c)) where
  length _ := rfl
  indexOf _ _ := rfl
  substring s a n hs h := by
    have hlen := hs.length_lt
    change substringMethod s (asUsize (.ofNat a)) (asUsize (.ofNat (a + n))) = _
    rw [substringMethod, asUsize_ofNat (by omega), asUsize_ofNat (by omega)]
    rw [min_eq_left (by omega), min_eq_left h, if_pos (Nat.le_add_right a n), sliceChars_of_le h]
  charAt s k c hs h := by
    have hlen := hs.length_lt
    obtain ⟨hk, -⟩ := List.getElem?_eq_some_iff.1 h
    have harm : (methodForms floatIndex m).charAt s (.ofNat k) =
        charAtMethod s (asUsize (.ofNat k)) := by
      -- a string on the stack is taken, whatever the fallback is
      have hpop : ∀ m' : State W, m'.stack = .i64 (.ofNat k) :: .str s :: m.stack →
          popOperands (charAtFallback m' [numOr (.i64 0), strOr]) m'.stack =
            .taken [.i64 (.ofNat k), .str s] m.stack := by
        intro m' hm
        rw [hm, charAtFallback]
        split <;> rfl
      change strMethod floatIndex "s.charAt" _ = _
      simp only [strMethod, builtinOperands, if_true]
      rw [hpop (m.on [.i64 (.ofNat k), .str s]) rfl]
      rfl
    rw [harm, charAtMethod, asUsize_ofNat (by omega), h]
    rfl

/-! ## The search -/

variable {F : IndexForms} {char : Char → StrOutcome}

theorem indexOfValue_of_absent (h : firstAt t.toList s.toList = none) :
    indexOfValue s t = .value (.i64 (-1)) := by
  rw [indexOfValue, strFind, h]
  rfl

theorem indexOfValue_of_first (h : firstAt t.toList s.toList = some k) :
    indexOfValue s t = .value (.i64 (.ofNat (String.utf8Len (s.toList.take k)))) := by
  rw [indexOfValue, strFind, h]
  rfl

theorem IndexForms.Counts.substring_eq_iff (hF : F.Counts char) (hs : Fits s)
    (h : k + t.toList.length ≤ s.toList.length) :
    F.substring s (.ofNat k) (.ofNat k + .ofNat t.toList.length) = .value (.str t) ↔
      occursAt t.toList s.toList k := by
  rw [← Int64.ofNat_add, hF.substring s k _ hs h, Occurrences.occursAt_iff]
  constructor
  · intro heq
    obtain heq := StrOutcome.value.inj heq
    rw [← Value.str.inj heq]
    simp
  · intro heq
    rw [heq, String.ofList_toList]

theorem IndexForms.Counts.finds (hF : F.Counts char) (hs : Fits s)
    (hk : firstAt t.toList s.toList = some k) :
    F.Finds s t (.ofNat k) (.ofNat t.toList.length) := by
  obtain ⟨-, hat, hmin⟩ := Occurrences.firstAt_eq_some_iff.1 hk
  have hle := Occurrences.firstAt_le hk
  have hlen := hs.length_lt
  -- `t` is a part of `s`, so its indices fit as those of `s` do
  have ht : t.toList <:+: s.toList := by
    by_contra hno
    rw [Occurrences.firstAt_eq_none_iff.2 hno] at hk
    cases hk
  refine ⟨fun _ => (hF.substring_eq_iff hs hle).2 hat, ?_, ?_, ?_⟩
  · intro _ j hj0 hjk
    obtain ⟨n, hn, rfl⟩ := exists_ofNat_lt hj0 hjk (by omega)
    rw [ne_eq, hF.substring_eq_iff hs (by omega)]
    exact hmin n hn
  · intro _ j hj0 hjn
    obtain ⟨n, hn, rfl⟩ := exists_ofNat_lt hj0 hjn (by omega)
    have hfits : Fits t := lt_of_le_of_lt (String.utf8Len_le_of_infix ht) hs
    have hc : t.toList[n]? = some t.toList[n] := getElem?_eq_getElem hn
    have hc' : s.toList[k + n]? = some t.toList[n] := by
      rw [← hc, ← Occurrences.occursAt_iff.1 hat, getElem?_take_of_lt hn, getElem?_drop]
    rw [← Int64.ofNat_add, hF.charAt s _ _ hs hc', hF.charAt t _ _ hfits hc]
  · refine iff_of_false (fun heq => ?_) (not_not_intro ht)
    have hint := congrArg Int64.toInt heq
    rw [Int64.toInt_ofNat_of_lt (by omega)] at hint
    have hneg : (-1 : Int64).toInt = -1 := by decide
    omega

theorem IndexForms.Counts.not_finds (hF : F.Counts char) (hs : Fits s) {i : Int64}
    (hk : firstAt t.toList s.toList = some k) (hi : Int64.ofNat k < i) :
    ¬ F.Finds s t i (.ofNat t.toList.length) := by
  obtain ⟨-, hat, -⟩ := Occurrences.firstAt_eq_some_iff.1 hk
  have hle := Occurrences.firstAt_le hk
  have hlen := hs.length_lt
  have h0 : 0 ≤ Int64.ofNat k := Int64.zero_le_ofNat_of_lt (by omega)
  intro h
  exact h.least (Int64.le_of_lt (Int64.lt_of_le_of_lt h0 hi)) _ h0 hi
    ((hF.substring_eq_iff hs hle).2 hat)

theorem IndexForms.Counts.unit_iff (hF : F.Counts char) (hs : Fits s) :
    F.OneUnit s t ↔ AsciiBefore s t := by
  cases hk : firstAt t.toList s.toList with
  | none =>
    refine iff_of_true ?_ (asciiBefore_of_absent hk)
    refine ⟨-1, _, (hF.indexOf s t).trans (indexOfValue_of_absent hk), hF.length t, ?_⟩
    have hneg : ¬ (0 : Int64) ≤ -1 := by decide
    exact ⟨fun h => absurd h hneg, fun h => absurd h hneg, fun h => absurd h hneg,
      iff_of_true rfl (Occurrences.firstAt_eq_none_iff.1 hk)⟩
  | some k =>
    have hle := Occurrences.firstAt_le hk
    have hlen : (s.toList.take k).length = k := by
      rw [length_take]
      omega
    have hindex := (hF.indexOf s t).trans (indexOfValue_of_first hk)
    -- the byte offset before the match fits, as the whole string does
    have hbytes : String.utf8Len (s.toList.take k) < 2 ^ 63 := by
      refine lt_of_le_of_lt ?_ hs
      conv_rhs => rw [← take_append_drop k s.toList, String.utf8Len_append]
      exact Nat.le_add_right _ _
    have hge := length_le_utf8Len (s.toList.take k)
    rw [asciiBefore_iff hk, ← utf8Len_eq_length_iff, hlen]
    constructor
    · rintro ⟨i, n, hi, hn, hfinds⟩
      cases StrOutcome.value.inj (hi.symm.trans hindex)
      cases StrOutcome.value.inj (hn.symm.trans (hF.length t))
      -- where the byte offset is beyond the index, one of the forms misses the match
      by_contra hne
      refine hF.not_finds hs hk ?_ hfinds
      rw [Int64.ofNat_lt_iff_lt (by omega) hbytes]
      omega
    · intro heq
      rw [heq] at hindex
      exact ⟨_, _, hindex, hF.length t, hF.finds hs hk⟩

/-! ## Splitting and replacing -/

theorem strSplit_eq (ht : t ≠ "") :
    strSplit s t = (splitAll t.toList s.toList).map String.ofList := if_neg ht

theorem toList_ne_nil (ht : t ≠ "") : t.toList ≠ [] := fun h => ht (String.toList_inj.1 h)

theorem intercalate_singletons (u x cs : List Char) :
    u.intercalate (x :: ((cs.map fun c => [c]) ++ [[]])) =
      x ++ u ++ cs.flatMap fun c => c :: u := by
  induction cs generalizing x with
  | nil => simp
  | cons c cs ih =>
    calc u.intercalate (x :: (((c :: cs).map fun c => [c]) ++ [[]]))
        = x ++ u ++ u.intercalate ([c] :: ((cs.map fun c => [c]) ++ [[]])) :=
          intercalate_cons_of_ne_nil (by simp)
      _ = x ++ u ++ (c :: cs).flatMap fun c => c :: u := by
          rw [ih]
          simp

theorem strReplace_eq (s t u : String) : strReplace s t u = u.intercalate (strSplit s t) := by
  apply String.toList_inj.1
  by_cases ht : t = ""
  · subst ht
    simp [strReplace, strSplit, intercalate_singletons, Function.comp_def]
  · rw [strReplace, if_neg ht, strSplit_eq ht, String.toList_ofList, String.toList_intercalate,
      Occurrences.replaceAll_eq (toList_ne_nil ht), map_map]
    simp

theorem intercalate_strSplit (s t : String) : t.intercalate (strSplit s t) = s := by
  apply String.toList_inj.1
  by_cases ht : t = ""
  · subst ht
    simp [strSplit, intercalate_singletons, Function.comp_def]
  · rw [strSplit_eq ht, String.toList_intercalate, map_map]
    simp [Function.comp_def, Occurrences.intercalate_splitAll]

theorem splitsAtIndex (p : Program) (m : State W) (hs : Fits s) (h : AsciiBefore s t) :
    SplitsAtIndex p m s t := by
  have hF := opForms_counts p m
  have hreplace : ∀ u, strOp p .strReplace (m.on [.str u, .str t, .str s]) =
      .value (.str (u.intercalate (strSplit s t))) := by
    intro u
    rw [← strReplace_eq]
    rfl
  cases hk : firstAt t.toList s.toList with
  | none =>
    -- the empty text occurs in every other
    have ht : t ≠ "" := by
      rintro rfl
      exact Occurrences.firstAt_eq_none_iff.1 hk ⟨[], s.toList, rfl⟩
    refine ⟨-1, _, _, _, indexOfValue_of_absent hk, hF.length t, hF.length s, rfl, ?_, ?_,
      intercalate_strSplit s t, hreplace⟩
    · intro _
      change strSplit s t = [s]
      rw [strSplit_eq ht, Occurrences.splitAll_of_none hk]
      simp
    · intro h0
      have hneg : ¬ (0 : Int64) ≤ -1 := by decide
      exact absurd h0 hneg
  | some k =>
    have hle := Occurrences.firstAt_le hk
    have hlen := hs.length_lt
    have hbytes : String.utf8Len (s.toList.take k) = k := by
      rw [(utf8Len_eq_length_iff _).2 ((asciiBefore_iff hk).1 h), length_take]
      omega
    have hindex := indexOfValue_of_first hk
    rw [hbytes] at hindex
    refine ⟨_, _, _, _, hindex, hF.length t, hF.length s, rfl, ?_, ?_,
      intercalate_strSplit s t, hreplace⟩
    · intro heq
      have hint := congrArg Int64.toInt heq
      rw [Int64.toInt_ofNat_of_lt (by omega)] at hint
      have hneg : (-1 : Int64).toInt = -1 := by decide
      omega
    · intro _
      have hfirst := hF.substring s 0 k hs (by omega)
      rw [zero_add] at hfirst
      by_cases ht : t = ""
      · subst ht
        obtain rfl : k = 0 := by
          by_contra hne
          exact (Occurrences.firstAt_eq_some_iff.1 hk).2.2 0 (by omega)
            (Occurrences.occursAt_iff.2 rfl)
        exact ⟨"", _, rfl, hfirst, absurd rfl⟩
      · have hrest := hF.substring s (k + t.toList.length)
          (s.toList.length - (k + t.toList.length)) hs (by omega)
        rw [Nat.add_sub_cancel' hle, Int64.ofNat_add] at hrest
        rw [take_of_length_le (by simp)] at hrest
        refine ⟨_, _, ?_, hfirst, fun _ => ⟨_, hrest, rfl⟩⟩
        change strSplit s t = _ :: strSplit (.ofList _) t
        rw [strSplit_eq ht, strSplit_eq ht, Occurrences.splitAll_of_some hk (toList_ne_nil ht)]
        simp

/-- **String indices have one unit where only ASCII precedes what is found**, and nowhere
else. -/
theorem oneUnit_iff (p : Program) (floatIndex : F64 → Nat) (m : State W) (s t : String)
    (hs : Fits s) : ((opForms p m).OneUnit s t ∧ (methodForms floatIndex m).OneUnit s t ∧
      SplitsAtIndex p m s t) ↔ AsciiBefore s t := by
  constructor
  · exact fun h => ((opForms_counts p m).unit_iff hs).1 h.1
  · exact fun h => ⟨((opForms_counts p m).unit_iff hs).2 h,
      ((methodForms_counts floatIndex m).unit_iff hs).2 h, splitsAtIndex p m hs h⟩

theorem oneUnit_ascii :
    Fits "a=b" ∧ (opForms ⟨[], [], [], []⟩ (State.initial ())).OneUnit "a=b" "=" := by
  have hfits : Fits "a=b" := by decide
  refine ⟨hfits, ((oneUnit_iff _ (fun _ => 0) (State.initial ()) "a=b" "=" hfits).2 ?_).1⟩
  exact (asciiBefore_iff (k := 1) (by rfl)).2 (by simp)

theorem indexOf_past_accent : let F := opForms ⟨[], [], [], []⟩ (State.initial ())
    F.indexOf "é=" "=" = .value (.i64 2) ∧ F.substring "é=" 2 3 = .value (.str "") ∧
      F.substring "é=" 1 2 = .value (.str "=") ∧ ¬ F.OneUnit "é=" "=" := by
  have hfits : Fits "é=" := by decide
  refine ⟨by decide, by decide, by decide, fun h => ?_⟩
  have hascii := ((opForms_counts _ _).unit_iff hfits).1 h
  have := (asciiBefore_iff (k := 1) (by decide)).1 hascii 'é' (by decide)
  exact absurd this (by decide)

end Arth
