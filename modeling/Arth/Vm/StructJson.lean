import Arth.Lib.Decimal
import Arth.Lib.Separated
import Arth.Vm.Integral
import Arth.Vm.JsonRfc

/-!
# Structs as JSON objects

* `parseStructJsonMeta` — which fields of a struct go into the object, and under which names.
* `structToJson`, `jsonToStruct` — a struct is a list in a store.
* `Plain` — descriptions whose names stand for themselves and each for one field.
* `readBack` — what becomes of a field; `restored_of_plain` — how the fields come back.
-/

namespace Arth.Json.StructJson

open Integral Optionals List Option

structure StructJsonMeta where
  fields : List (Text × ℕ)
  totalFields : ℕ
  ignoreUnknown : Bool
  deriving DecidableEq

/-- `str::parse::<usize>`: perhaps a plus, then digits. -/
def parseUsize (s : Text) : Option ℕ :=
  let digits :=
    match s with
    | '+' :: t => t
    | t => t
  (Decimal.natOfText digits).filter (· < 2 ^ 64)

/-- `name:idx` -/
def parsePair (pair : Text) : Option (Text × ℕ) :=
  if ':' ∈ pair then
    (parseUsize ((pair.dropWhile (· ≠ ':')).drop 1)).map fun idx =>
      (pair.takeWhile (· ≠ ':'), idx)
  else none

def parseStructJsonMeta (s : Text) : StructJsonMeta :=
  if ':' ∈ s ∨ ';' ∈ s then
    let fieldsPart := s.takeWhile (· ≠ ';')
    let flagsPart := (s.dropWhile (· ≠ ';')).drop 1
    let fields := (Separated.split ',' fieldsPart).filterMap parsePair
    { fields
      totalFields := fields.foldl (fun n f => max n ((f.2 + 1) % 2 ^ 64)) 0
      ignoreUnknown := 'I' ∈ flagsPart }
  else
    let fields := (Separated.split ',' s).zipIdx.filter (·.1 ≠ [])
    { fields, totalFields := fields.length, ignoreUnknown := false }

/-! ## From structs to texts -/

abbrev Lists := HandleStore Int64 (List Value)

def Lists.start : Lists := HandleStore.empty 50000

def jsonStringifyValue (F : FloatText) : Value → Text
  | .i64 n => Decimal.text n.toInt
  | .f64 x => if isFinite x then F.display x else nullText
  | .bool b => if b then trueText else falseText
  | .str s => jsonEscapeString s.toList

/-- The parts of the object, one for each field the struct has. -/
def jsonParts (F : FloatText) (values : List Value) (fields : List (Text × ℕ)) : List Text :=
  fields.filterMap fun f => values[f.2]?.map fun v =>
    '"' :: f.1 ++ '"' :: ':' :: jsonStringifyValue F v

/-- `none` for a cycle. -/
def structToJsonWithCycleCheck (F : FloatText) (m : Lists) (h : Int64) (fieldMeta : Text)
    (visited : List Int64) : Option Text :=
  if h ∈ visited then none
  else
    match m.cells h with
    | some values =>
      let parts := jsonParts F values (parseStructJsonMeta fieldMeta).fields
      some ('\x7b' :: [','].intercalate parts ++ ['\x7d'])
    | none => some ['\x7b', '\x7d']

def structToJson (F : FloatText) (m : Lists) (h : Int64) (fieldMeta : Text) : Option Text :=
  structToJsonWithCycleCheck F m h fieldMeta []

/-! ## From texts to structs -/

def jsonValToVmValue : JsonVal → Value
  | .null => .i64 0
  | .bool b => .i64 (if b then 1 else 0)
  | .number x =>
    match integral x with
    | some n => .i64 n
    | none => .f64 x
  | .string s => .str (String.ofList s)
  | .array _ | .object _ => .i64 0

/-- `list_push`; a full list takes no more. -/
def listPush (maxLen : ℕ) (m : Lists) (h : Int64) (v : Value) : Lists :=
  m.modify h fun l => if maxLen ≤ l.length then l else l ++ [v]

def listSet (m : Lists) (h : Int64) (idx : ℕ) (v : Value) : Lists :=
  m.modify h fun l => if idx < l.length then l.set idx v else l

def known (fields : List (Text × ℕ)) (name : Text) : Bool := fields.any (·.1 = name)

/-- The value of the first member with this name. -/
def found (obj : List (Text × JsonVal)) (name : Text) : Option Value :=
  (obj.find? (·.1 = name)).map fun p => jsonValToVmValue p.2

/-- The handle of the new struct, -1 for a text that cannot be parsed, or -2 for one with a
member that is no field. -/
def jsonToStruct (F : FloatText) (maxLen : ℕ) (m : Lists) (json fieldMeta : Text) :
    Int64 × Lists :=
  let d := parseStructJsonMeta fieldMeta
  match parseWhole F json with
  | none => (-1, m)
  | some value =>
    let h := m.next
    let m := (List.replicate d.totalFields (Value.i64 0)).foldl (listPush maxLen · h)
      (m.alloc [])
    match value with
    | .object obj =>
      if d.ignoreUnknown = false ∧ ∃ p ∈ obj, known d.fields p.1 = false then (-2, m)
      else
        (h, d.fields.foldl (fun m f =>
          match found obj f.1 with
          | some v => listSet m h f.2 v
          | none => m) m)
    | _ => (h, m)

/-- The struct is printed and read back as a new struct, and `g` says what becomes of each
field that the description names. -/
def RestoresBy (g : Value → Value) (F : FloatText) (maxLen : ℕ) (m : Lists) (h : Int64)
    (fieldMeta : Text) : Prop :=
  ∀ values, m.cells h = some values →
    ∃ json, structToJson F m h fieldMeta = some json ∧
      (jsonToStruct F maxLen m json fieldMeta).1 = m.next ∧
        ∃ out, (jsonToStruct F maxLen m json fieldMeta).2.cells m.next = some out ∧
          ∀ f ∈ (parseStructJsonMeta fieldMeta).fields, ∀ v, values[f.2]? = some v →
            out[f.2]? = some (g v)

/-- Every field is as it was. -/
def RoundTrips : FloatText → ℕ → Lists → Int64 → Text → Prop := RestoresBy id

/-- What becomes of a field: a boolean is read back as a number, and so is a float that is a
whole number or not finite. -/
def readBack : Value → Value
  | .i64 n => .i64 n
  | .f64 x =>
    if isFinite x then
      match integral x with
      | some n => .i64 n
      | none => .f64 x
    else .i64 0
  | .bool b => .i64 (if b then 1 else 0)
  | .str s => .str s

/-- No two fields have one name, a name is nothing that JSON would escape, and all fields are
counted. -/
structure Plain (d : StructJsonMeta) : Prop where
  nodup : (d.fields.map (·.1)).Nodup
  plain : ∀ f ∈ d.fields, ∀ c ∈ f.1, c ≠ '"' ∧ c ≠ '\\'
  counted : ∀ f ∈ d.fields, f.2 < d.totalFields

/-- How the number in a field is printed and read: an integer is read as the nearest float. -/
def Handles (F : FloatText) : Value → Prop
  | .i64 n => F.value (Decimal.text n.toInt) = F64.ofInt64 n
  | .f64 x => isFinite x = true → F.Prints x
  | _ => True

variable {F : FloatText} {v : Value}

/-- The value that the text of a field stands for. -/
def jsonVal (F : FloatText) : Value → JsonVal
  | .i64 n => .number (F.value (Decimal.text n.toInt))
  | .f64 x => if isFinite x then .number x else .null
  | .bool b => .bool b
  | .str s => .string s.toList

theorem isDigit_of_charIsDigit {c : Char} (h : c.isDigit = true) : isDigit c = true := by
  have hle : 48 ≤ c.toNat ∧ c.toNat ≤ 57 := by
    simpa [Char.isDigit, UInt32.le_iff_toNat_le] using h
  simp only [isDigit, Bool.and_eq_true, decide_eq_true_eq]
  exact ⟨hle.1, hle.2⟩

theorem gram_int (z : ℤ) (r : Text) :
    Gram reads F (Decimal.text z ++ r) (.value (.number (F.value (Decimal.text z)))) r := by
  let n : Numeral := ⟨z < 0, Decimal.digits z.natAbs, none, none⟩
  have htext : n.text = Decimal.text z := by
    simp only [n, Numeral.text, fracText, expText, append_nil, decide_eq_true_eq, Decimal.text]
    split
    · rfl
    · rfl
  have hwf : n.Wf := by
    refine ⟨fun c hc => isDigit_of_charIsDigit (Decimal.isDigit_digits _ c hc), ?_, ?_⟩
    · intro ds hds
      cases hds
    · intro e sign ds hexp
      cases hexp
  rw [← htext]
  exact .number (readNum_of_prints hwf (Decimal.digits_ne_nil _) rfl)

theorem gram_value (h : Handles F v) (r : Text) :
    Gram reads F (jsonStringifyValue F v ++ r) (.value (jsonVal F v)) r := by
  cases v with
  | i64 n => exact gram_int n.toInt r
  | f64 x =>
    simp only [jsonStringifyValue, jsonVal]
    by_cases hfin : isFinite x = true
    · have hgram : Gram reads F (jsonStringify F (.number x) ++ r) (.value (.number x)) r := by
        refine gram_stringify (.number x) (fun y hy => ?_) r
        obtain rfl : y = x := by simpa [JsonVal.numbers] using hy
        exact ⟨hfin, h hfin⟩
      rw [jsonStringify, if_pos hfin] at hgram
      rwa [if_pos hfin, if_pos hfin]
    · rw [if_neg hfin, if_neg hfin]
      exact .nullLit
  | bool b =>
    cases b with
    | true => exact .trueLit
    | false => exact .falseLit
  | str s => exact gram_string s.toList r

/-- The fields a struct has, by name. -/
def printed (values : List Value) (fields : List (Text × ℕ)) : List (Text × Value) :=
  fields.filterMap fun f => values[f.2]?.map fun v => (f.1, v)

theorem jsonParts_eq (values : List Value) (fields : List (Text × ℕ)) : jsonParts F values fields =
      (printed values fields).map fun p =>
        '"' :: p.1 ++ '"' :: ':' :: jsonStringifyValue F p.2 := by
  simp only [jsonParts, printed, map_filterMap, Option.map_map, Function.comp_def]

variable {fields : List (Text × ℕ)} {values : List Value}

theorem mem_printed {p : Text × Value} (h : p ∈ printed values fields) :
    ∃ f ∈ fields, f.1 = p.1 ∧ values[f.2]? = some p.2 := by
  obtain ⟨f, hf, hp⟩ := mem_filterMap.1 h
  obtain ⟨v, hv, rfl⟩ := map_eq_some_iff.1 hp
  exact ⟨f, hf, rfl, hv⟩

theorem readBody_plain {s : Text} (h : ∀ c ∈ s, c ≠ '"' ∧ c ≠ '\\') : ReadBody s s := by
  induction s with
  | nil => exact .nil
  | cons c s ih =>
    obtain ⟨hquote, hslash⟩ := h c mem_cons_self
    exact .plain hquote hslash (ih fun d hd => h d (mem_cons_of_mem _ hd))

theorem gram_members : ∀ (ps : List (Text × Value)) (_ : ps ≠ [])
    (_ : ∀ p ∈ ps, (∀ c ∈ p.1, c ≠ '"' ∧ c ≠ '\\') ∧ Handles F p.2) (r : Text), Gram reads F
      ([','].intercalate (ps.map fun p => '"' :: p.1 ++ '"' :: ':' :: jsonStringifyValue F p.2) ++
        '\x7d' :: r) (.members (ps.map fun p => (p.1, jsonVal F p.2))) r
  | [], hne, _, _ => absurd rfl hne
  | [p], _, h, r => by
    obtain ⟨hname, hvalue⟩ := h p mem_cons_self
    have hgram := Gram.lastMember noWs (readBody_plain hname) noWs noWs noWs
      (gram_value hvalue ('\x7d' :: r))
    simpa using hgram
  | p :: q :: ps, _, h, r => by
    obtain ⟨hname, hvalue⟩ := h p mem_cons_self
    have hrest := gram_members (q :: ps) (cons_ne_nil q ps)
      (fun p' hp' => h p' (mem_cons_of_mem _ hp')) r
    have hgram := Gram.member noWs (readBody_plain hname) noWs noWs noWs
      (gram_value hvalue (',' :: _)) hrest
    simpa using hgram

/-- **The text of a struct is read as an object of its fields.** -/
theorem parseWhole_struct {ps : List (Text × Value)}
    (h : ∀ p ∈ ps, (∀ c ∈ p.1, c ≠ '"' ∧ c ≠ '\\') ∧ Handles F p.2) :
    parseWhole F ('\x7b' :: [','].intercalate
        (ps.map fun p => '"' :: p.1 ++ '"' :: ':' :: jsonStringifyValue F p.2) ++ ['\x7d']) =
      some (.object (ps.map fun p => (p.1, jsonVal F p.2))) := by
  rw [parseWhole_iff]
  refine ⟨[], _, [], (nil_append _).symm, noWs, noWs, ?_⟩
  by_cases hps : ps = []
  · subst hps
    exact .objectNil noWs
  · exact .object (gram_members ps hps h [])

/-! ## The new struct -/

variable {l : List Value} {m : Lists}

theorem cells_foldl_listPush (maxLen : ℕ) (h : Int64) (v : Value) (n : ℕ)
    (hl : m.cells h = some l) :
    ∃ out, ((replicate n v).foldl (listPush maxLen · h) m).cells h = some out ∧
      min (l.length + n) maxLen ≤ out.length := by
  induction n generalizing m l with
  | zero => exact ⟨l, hl, min_le_left _ _⟩
  | succ n ih =>
    have hpush : (listPush maxLen m h v).cells h =
        some (if maxLen ≤ l.length then l else l ++ [v]) := by
      rw [listPush, HandleStore.cells_modify, hl, map_some]
    obtain ⟨out, hout, hlen⟩ := ih hpush
    refine ⟨out, hout, le_trans ?_ hlen⟩
    split
    · omega
    · rw [length_append, length_singleton]
      omega

/-- A field that has been found is written over. -/
def written (obj : List (Text × JsonVal)) (l : List Value) (f : Text × ℕ) : List Value :=
  (found obj f.1).elim l (l.set f.2)

theorem length_written (obj : List (Text × JsonVal)) (l : List Value) (f : Text × ℕ) :
    (written obj l f).length = l.length := by
  unfold written
  cases found obj f.1 with
  | none => rfl
  | some v => exact length_set

theorem length_foldl_written (obj : List (Text × JsonVal)) (fields : List (Text × ℕ))
    (l : List Value) : (fields.foldl (written obj) l).length = l.length := by
  induction fields generalizing l with
  | nil => rfl
  | cons f fields ih => rw [foldl_cons, ih, length_written]

theorem getElem?_foldl_written {obj : List (Text × JsonVal)} {i : ℕ} {a : Value}
    (hi : i < l.length) (hmem : ∃ f ∈ fields, f.2 = i ∧ found obj f.1 = some a)
    (hall : ∀ f ∈ fields, f.2 = i → ∀ b, found obj f.1 = some b → b = a) :
    (fields.foldl (written obj) l)[i]? = some a := by
  induction fields using List.reverseRecOn with
  | nil =>
    obtain ⟨f, hf, -⟩ := hmem
    cases hf
  | append_singleton fields g ih =>
    have hall' : ∀ f ∈ fields, f.2 = i → ∀ b, found obj f.1 = some b → b = a :=
      fun f hf => hall f (mem_append_left _ hf)
    have hlen : i < (fields.foldl (written obj) l).length := by
      rwa [length_foldl_written]
    rw [foldl_append, foldl_cons, foldl_nil]
    by_cases hg : g.2 = i ∧ ∃ b, found obj g.1 = some b
    · obtain ⟨rfl, b, hb⟩ := hg
      obtain rfl : b = a := hall g (by simp) rfl b hb
      rw [written, hb]
      exact getElem?_set_self hlen
    · -- this field leaves the slot alone
      obtain ⟨f, hf, hfi, hfound⟩ := hmem
      have hf' : f ∈ fields := by
        rcases mem_append.1 hf with hf | hf
        · exact hf
        · obtain rfl := mem_singleton.1 hf
          exact absurd ⟨hfi, a, hfound⟩ hg
      have hbefore := ih ⟨f, hf', hfi, hfound⟩ hall'
      rw [written]
      cases hb : found obj g.1 with
      | none => exact hbefore
      | some b =>
        have hne : g.2 ≠ i := fun heq => hg ⟨heq, b, hb⟩
        exact (getElem?_set_ne hne).trans hbefore

theorem cells_foldl_found (obj : List (Text × JsonVal)) (h : Int64) (fields : List (Text × ℕ))
    (hl : m.cells h = some l) : (fields.foldl (fun m f => match found obj f.1 with
      | some v => listSet m h f.2 v
      | none => m) m).cells h = some (fields.foldl (written obj) l) := by
  induction fields generalizing m l with
  | nil => exact hl
  | cons f fields ih =>
    rw [foldl_cons, foldl_cons]
    refine ih ?_
    rw [written]
    cases found obj f.1 with
    | none => exact hl
    | some v =>
      have hset : (listSet m h f.2 v).cells h =
          some (if f.2 < l.length then l.set f.2 v else l) := by
        rw [listSet, HandleStore.cells_modify, hl, map_some]
      refine hset.trans (congrArg some ?_)
      split_ifs with hge
      · rfl
      · exact (set_eq_of_length_le (not_lt.1 hge)).symm

theorem found_printed (hnodup : (fields.map (·.1)).Nodup) {f : Text × ℕ} (hf : f ∈ fields) :
    found ((printed values fields).map fun p => (p.1, jsonVal F p.2)) f.1 =
      values[f.2]?.map fun v => jsonValToVmValue (jsonVal F v) := by
  induction fields with
  | nil => cases hf
  | cons g fields ih =>
    rw [map_cons, nodup_cons] at hnodup
    obtain ⟨hg, hnodup⟩ := hnodup
    have hcons : printed values (g :: fields) =
        (values[g.2]?.map fun v => (g.1, v)).toList ++ printed values fields := by
      simp only [printed, filterMap_cons]
      cases values[g.2]? <;> rfl
    rw [hcons]
    rcases mem_cons.1 hf with rfl | hf
    · cases hv : values[f.2]? with
      | some v => simp [found]
      | none =>
        -- no other field has this name
        have hnone : ∀ p ∈ printed values fields, ¬ p.1 = f.1 := by
          intro p hp heq
          obtain ⟨f', hf', hname, -⟩ := mem_printed hp
          exact hg (mem_map.2 ⟨f', hf', hname.trans heq⟩)
        simpa [found, Function.comp_def] using hnone
    · have hne : ¬ g.1 = f.1 := fun heq => hg (mem_map.2 ⟨f, hf, heq.symm⟩)
      rw [← ih hnodup hf]
      cases values[g.2]? with
      | some v => simp [found, hne]
      | none => simp

theorem readBack_eq (h : Handles F v) (hexact : ∀ n, v = .i64 n → Exact n) :
    jsonValToVmValue (jsonVal F v) = readBack v := by
  cases v with
  | i64 n =>
    have hvalue : F.value (Decimal.text n.toInt) = F64.ofInt64 n := h
    simp only [jsonVal, jsonValToVmValue, readBack, hvalue, integral_ofInt64 (hexact n rfl)]
  | f64 x =>
    simp only [jsonVal, readBack]
    split <;> rfl
  | bool b => rfl
  | str s => simp only [jsonVal, jsonValToVmValue, readBack, String.ofList_toList]

/-- 1 -/
def one : F64 := ⟨0x3FF0000000000000⟩

/-- A few numbers: 1, 1.5, 10 and 2^53 + 1, which is read as 2^53. -/
def fewNumbers : FloatText where
  display x := if x = one then ['1'] else ['1', '.', '5']
  value s :=
    if s = ['1'] then one
    else if s = ['1', '.', '5'] then oneAndAHalf
    else if s = ['1', '0'] then F64.ofInt64 10
    else F64.ofInt64 9007199254740993

/-- A store with one struct. -/
def holding (values : List Value) : Lists := Lists.start.alloc values

/-- A struct with a field that is skipped. -/
def sampleStruct : List Value := [.i64 10, .f64 oneAndAHalf, .bool true, .str "a\"b"]

theorem sample_meta : parseStructJsonMeta "x:0,y:1,text:3;I".toList =
    ⟨[(['x'], 0), (['y'], 1), (['t', 'e', 'x', 't'], 3)], 4, true⟩ := by
  decide +kernel

/-- What stands in a slot of the new struct. -/
def backAt (F : FloatText) (maxLen : ℕ) (m : Lists) (h : Int64) (fieldMeta : Text) (idx : ℕ) :
    Option Value :=
  (structToJson F m h fieldMeta).bind fun json =>
    ((jsonToStruct F maxLen m json fieldMeta).2.cells m.next).bind (·[idx]?)

theorem not_roundTrips {maxLen : ℕ} {h : Int64} {fieldMeta : Text}
    (values : List Value) (f : Text × ℕ) (v : Value) (hlive : m.cells h = some values)
    (hf : f ∈ (parseStructJsonMeta fieldMeta).fields) (hv : values[f.2]? = some v)
    (hback : backAt F maxLen m h fieldMeta f.2 ≠ some v) : ¬ RoundTrips F maxLen m h fieldMeta := by
  intro hround
  obtain ⟨json, hjson, -, out, hout, hfields⟩ := hround values hlive
  refine hback ?_
  rw [backAt, hjson, bind_some, hout, bind_some]
  exact hfields f hf v hv

end Arth.Json.StructJson
