import Mathlib

/-!
# Fingerprints

`driver/incremental/fingerprint.rs`: the byte streams that are hashed for the sources, the
interface, the configuration and the whole of a package. SHA-256 is the parameter `sha256`;
paths are a parameter with their order and their lossy text.

* `lines_inj`, `items_inj`, `variants_inj` — what can be read back from the parts of a stream.
* `fingerprints_separate` — texts without the separators that surround them are told apart.
-/

namespace Arth.Fingerprints

abbrev Bytes := List UInt8

/-- `as_bytes`. -/
def bytes (s : String) : Bytes := s.toByteArray.data.toList

def byte (c : Char) : UInt8 := c.toNat.toUInt8

inductive FingerprintKind where
  | source | interface | package | config
  deriving DecidableEq

structure Fingerprint where
  hash : String
  kind : FingerprintKind
  deriving DecidableEq

/-- A `BTreeMap` with strings for keys, in its order. -/
@[ext] structure BTreeMap (V : Type) where
  entries : List (String × V)
  sorted : entries.Pairwise fun a b => a.1 < b.1

@[ext] structure BTreeSet where
  elems : List String
  sorted : elems.Pairwise (· < ·)

structure CompileInputs where
  compilerVersion : String
  backend : String
  optLevel : UInt8
  features : BTreeSet
  debugInfo : Bool

structure PackageInterface where
  structs : BTreeMap (List (String × String))
  enums : BTreeMap (List (String × Option String))
  interfaces : BTreeMap (List (String × String))
  modules : BTreeMap (List (String × String))
  typeAliases : BTreeMap String

/-! ## Hashing -/

def hexDigit (n : Nat) : Char := if n < 10 then .ofNat (48 + n) else .ofNat (87 + n)

def hexEncode (bs : Bytes) : String :=
  .ofList (bs.flatMap fun b => [hexDigit (b.toNat / 16), hexDigit (b.toNat % 16)])

/-- `FINGERPRINT_VERSION.to_le_bytes()`. -/
def version : Bytes := [1, 0, 0, 0]

section Streams

variable (sha256 : Bytes → Vector UInt8 32)

def hashBytes (data : Bytes) : String := hexEncode (sha256 data).toList

def fingerprintContent (contents : String) : String := hashBytes sha256 (bytes contents)

variable {P : Type} (le : P → P → Bool) (lossy : P → String)

def sourceBytes (f : P × String) : Bytes :=
  bytes (lossy f.1) ++ bytes ":" ++ bytes (fingerprintContent sha256 f.2) ++ bytes "\n"

def sourcesStream (files : List (P × String)) : Bytes :=
  version ++ (files.mergeSort fun a b => le a.1 b.1).flatMap (sourceBytes sha256 lossy)

def fingerprintPackageSources (files : List (P × String)) : Fingerprint :=
  ⟨hashBytes sha256 (sourcesStream sha256 le lossy files), .source⟩

/-- A field, a method, a function or a dependency. -/
def itemBytes (e : String × String) : Bytes :=
  bytes e.1 ++ bytes ":" ++ bytes e.2 ++ bytes ","

def variantBytes (v : String × Option String) : Bytes :=
  bytes v.1 ++
    (match v.2 with
      | some p => bytes "(" ++ bytes p ++ bytes ")"
      | none => []) ++ bytes ","

/-- One declaration of an interface. -/
def recordBytes {A : Type} (tag : String) (item : A → Bytes) (r : String × List A) : Bytes :=
  bytes tag ++ bytes r.1 ++ bytes ":" ++ r.2.flatMap item ++ bytes "\n"

def aliasBytes (a : String × String) : Bytes :=
  bytes "typealias:" ++ bytes a.1 ++ bytes "=" ++ bytes a.2 ++ bytes "\n"

def interfaceStream (i : PackageInterface) : Bytes :=
  version ++ i.structs.entries.flatMap (recordBytes "struct:" itemBytes) ++
    i.enums.entries.flatMap (recordBytes "enum:" variantBytes) ++
    i.interfaces.entries.flatMap (recordBytes "interface:" itemBytes) ++
    i.modules.entries.flatMap (recordBytes "module:" itemBytes) ++
    i.typeAliases.entries.flatMap aliasBytes

def fingerprintInterface (i : PackageInterface) : Fingerprint :=
  ⟨hashBytes sha256 (interfaceStream i), .interface⟩

def configStream (c : CompileInputs) : Bytes :=
  version ++ bytes "compiler:" ++ bytes c.compilerVersion ++ bytes "\n" ++
    bytes "backend:" ++ bytes c.backend ++ bytes "\n" ++
    bytes "opt:" ++ [c.optLevel] ++ bytes "\n" ++
    bytes "debug:" ++ [c.debugInfo.toUInt8] ++ bytes "\n" ++
    bytes "features:" ++ c.features.elems.flatMap (fun f => bytes f ++ bytes ",") ++ bytes "\n"

def fingerprintConfig (c : CompileInputs) : Fingerprint :=
  ⟨hashBytes sha256 (configStream c), .config⟩

def packageStream (source config : Fingerprint) (deps : BTreeMap Fingerprint) : Bytes :=
  version ++ bytes "source:" ++ bytes source.hash ++ bytes "\n" ++
    bytes "config:" ++ bytes config.hash ++ bytes "\n" ++
    bytes "deps:" ++ deps.entries.flatMap (fun d => itemBytes (d.1, d.2.hash)) ++ bytes "\n"

def fingerprintPackage (source config : Fingerprint) (deps : BTreeMap Fingerprint) :
    Fingerprint :=
  ⟨hashBytes sha256 (packageStream source config deps), .package⟩

end Streams

/-! ## Texts and digests -/

theorem bytes_inj {s t : String} (h : bytes s = bytes t) : s = t := by
  rw [← String.toByteArray_inj]
  exact ByteArray.ext (Array.toList_inj.1 h)

theorem hexDigit_inj : ∀ m < 16, ∀ n < 16, hexDigit m = hexDigit n → m = n := by decide

theorem hexEncode_inj {as bs : Bytes} (h : hexEncode as = hexEncode bs) : as = bs := by
  replace h := String.ofList_injective h
  induction as generalizing bs with
  | nil =>
    cases bs with
    | nil => rfl
    | cons b bs => simp at h
  | cons a as ih =>
    cases bs with
    | nil => simp at h
    | cons b bs =>
      -- a byte is two digits: its quotient and its remainder by 16
      simp only [List.flatMap_cons, List.cons_append, List.nil_append, List.cons.injEq] at h
      obtain ⟨hhigh, hlow, hrest⟩ := h
      have ha := a.toNat_lt
      have hb := b.toNat_lt
      have hdiv := hexDigit_inj _ (by omega) _ (by omega) hhigh
      have hmod := hexDigit_inj _ (by omega) _ (by omega) hlow
      have hab : a = b := UInt8.toNat_inj.1 (by omega)
      rw [hab, ih hrest]

variable {sha256 : Bytes → Vector UInt8 32} {a b : Bytes}

theorem hashBytes_inj (h : hashBytes sha256 a = hashBytes sha256 b) : sha256 a = sha256 b :=
  Vector.toList_inj.1 (hexEncode_inj h)

theorem bytes_ofList (cs : List Char) : bytes (.ofList cs) = cs.flatMap String.utf8EncodeChar := by
  rw [bytes, String.toByteArray_ofList, List.utf8Encode, List.data_toByteArray]

theorem not_mem_hashBytes (sha256 : Bytes → Vector UInt8 32) (data : Bytes) {b : UInt8}
    (hb : b = 10 ∨ b = 58) : b ∉ bytes (hashBytes sha256 data) := by
  have hascii : ∀ n < 16, (hexDigit n).utf8Size = 1 := by decide
  have hdigit : ∀ n < 16, byte (hexDigit n) ≠ 10 ∧ byte (hexDigit n) ≠ 58 := by decide
  rw [hashBytes, hexEncode, bytes_ofList]
  intro hmem
  obtain ⟨c, hc, hmem⟩ := List.mem_flatMap.1 hmem
  obtain ⟨d, -, hc⟩ := List.mem_flatMap.1 hc
  have hd := d.toNat_lt
  -- every character of the text is one of the 16 digits, each of one byte
  obtain ⟨n, hn, rfl⟩ : ∃ n < 16, c = hexDigit n := by
    rcases List.mem_cons.1 hc with rfl | hc
    · exact ⟨_, by omega, rfl⟩
    · exact ⟨_, by omega, List.mem_singleton.1 hc⟩
  rw [String.utf8EncodeChar_eq_singleton (hascii n hn)] at hmem
  obtain rfl := List.mem_singleton.1 hmem
  rcases hb with hb | hb
  · exact (hdigit n hn).1 hb
  · exact (hdigit n hn).2 hb

/-! ## Reading a stream back -/

section Cuts

variable {A : Type} {c d : A}

theorem cut : ∀ {s t x y : List A}, d ∉ s → c ∉ t → s ++ c :: x = t ++ d :: y →
    s = t ∧ c = d ∧ x = y
  | [], [], _, _, _, _, h => by simpa using h
  | [], b :: t, _, _, _, hc, h => by
    obtain ⟨rfl, -⟩ := List.cons.inj h
    exact absurd List.mem_cons_self hc
  | a :: s, [], _, _, hd, _, h => by
    obtain ⟨rfl, -⟩ := List.cons.inj h
    exact absurd List.mem_cons_self hd
  | a :: s, b :: t, _, _, hd, hc, h => by
    obtain ⟨rfl, h'⟩ := List.cons.inj h
    obtain ⟨rfl, hrest⟩ := cut (fun hm => hd (List.mem_cons_of_mem _ hm))
      (fun hm => hc (List.mem_cons_of_mem _ hm)) h'
    exact ⟨rfl, hrest⟩

theorem cut_last {s t x y : List A} (hx : c ∉ x) (hy : c ∉ y) (h : s ++ c :: x = t ++ c :: y) :
    s = t ∧ x = y := by
  have hrev := congrArg List.reverse h
  simp only [List.reverse_append, List.reverse_cons, List.append_assoc, List.cons_append,
    List.nil_append] at hrev
  obtain ⟨hxy, -, hst⟩ := cut (by simpa using hx) (by simpa using hy) hrev
  exact ⟨List.reverse_inj.1 hst, List.reverse_inj.1 hxy⟩

theorem cut_pair (hcd : c ≠ d) : ∀ {s t x y : List A}, ¬ [c, d] <:+: s → ¬ [c, d] <:+: t →
    s ++ c :: d :: x = t ++ c :: d :: y → s = t ∧ x = y
  | [], [], _, _, _, _, h => by simpa using h
  | [], [b], _, _, _, _, h => by
    simp only [List.nil_append, List.cons_append, List.cons.injEq] at h
    exact absurd h.2.1.symm hcd
  | [], b :: b' :: t, _, _, _, ht, h => by
    obtain ⟨rfl, rfl, -⟩ := h
    exact absurd ⟨[], t, rfl⟩ ht
  | [a], [], _, _, _, _, h => by
    simp only [List.nil_append, List.cons_append, List.cons.injEq] at h
    exact absurd h.2.1 hcd
  | a :: a' :: s, [], _, _, hs, _, h => by
    obtain ⟨rfl, rfl, -⟩ := h
    exact absurd ⟨[], s, rfl⟩ hs
  | a :: s, b :: t, _, _, hs, ht, h => by
    obtain ⟨rfl, h'⟩ := List.cons.inj h
    obtain ⟨rfl, hrest⟩ := cut_pair hcd (fun hm => hs (hm.trans (List.suffix_cons a s).isInfix))
      (fun hm => ht (hm.trans (List.suffix_cons a t).isInfix)) h'
    exact ⟨rfl, hrest⟩

theorem lines_inj : ∀ {ls ms : List (List A)}, (∀ l ∈ ls, c ∉ l) → (∀ m ∈ ms, c ∉ m) →
    ls.flatMap (· ++ [c]) = ms.flatMap (· ++ [c]) → ls = ms
  | [], [], _, _, _ => rfl
  | [], m :: ms, _, _, h | l :: ls, [], _, _, h => by simp at h
  | l :: ls, m :: ms, hl, hm, h => by
    obtain ⟨hl, hls⟩ := List.forall_mem_cons.1 hl
    obtain ⟨hm, hms⟩ := List.forall_mem_cons.1 hm
    simp only [List.flatMap_cons, List.append_assoc, List.singleton_append] at h
    obtain ⟨rfl, -, h⟩ := cut hl hm h
    rw [lines_inj hls hms h]

theorem map_inj_of {B : Type} {f : A → B} : ∀ {l m : List A},
    (∀ a ∈ l, ∀ b ∈ m, f a = f b → a = b) → l.map f = m.map f → l = m
  | [], [], _, _ => rfl
  | [], b :: m, _, h | a :: l, [], _, h => by simp at h
  | a :: l, b :: m, hinj, h => by
    obtain ⟨hab, h⟩ := List.cons.inj h
    rw [hinj a List.mem_cons_self b List.mem_cons_self hab, map_inj_of (fun a ha b hb =>
      hinj a (List.mem_cons_of_mem _ ha) b (List.mem_cons_of_mem _ hb)) h]

end Cuts

/-- A name and its type can be told from what surrounds them. -/
structure CleanItem (e : String × String) : Prop where
  name_colon : byte ':' ∉ bytes e.1
  name_comma : byte ',' ∉ bytes e.1
  type_colon : byte ':' ∉ bytes e.2

theorem itemBytes_eq (e : String × String) (rest : Bytes) :
    itemBytes e ++ rest = bytes e.1 ++ byte ':' :: (bytes e.2 ++ byte ',' :: rest) := by
  have hcolon : bytes ":" = [byte ':'] := by decide
  have hcomma : bytes "," = [byte ','] := by decide
  simp [itemBytes, hcolon, hcomma]

theorem items_inj_tail : ∀ {l m : List (String × String)} {t u : Bytes},
    (∀ e ∈ l, CleanItem e) → (∀ e ∈ m, CleanItem e) → byte ':' ∉ t → byte ':' ∉ u →
      t ++ byte ',' :: l.flatMap itemBytes = u ++ byte ',' :: m.flatMap itemBytes → t = u ∧ l = m
  | [], [], t, u, _, _, _, _, h => ⟨List.append_cancel_right h, rfl⟩
  | [], e :: m, t, u, _, _, ht, _, h => by
    -- a further item would bring a colon, and there is none to the left
    have hmem : byte ':' ∈ t ++ byte ',' :: ([] : List (String × String)).flatMap itemBytes := by
      rw [h, List.flatMap_cons, itemBytes_eq]
      simp
    rcases List.mem_append.1 hmem with hmem | hmem
    · exact absurd hmem ht
    · exact absurd hmem (by decide)
  | e :: l, [], t, u, _, _, _, hu, h => by
    have hmem : byte ':' ∈ u ++ byte ',' :: ([] : List (String × String)).flatMap itemBytes := by
      rw [← h, List.flatMap_cons, itemBytes_eq]
      simp
    rcases List.mem_append.1 hmem with hmem | hmem
    · exact absurd hmem hu
    · exact absurd hmem (by decide)
  | e :: l, f :: m, t, u, hl, hm, ht, hu, h => by
    obtain ⟨he, hl⟩ := List.forall_mem_cons.1 hl
    obtain ⟨hf, hm⟩ := List.forall_mem_cons.1 hm
    have hne : byte ':' ≠ byte ',' := by decide
    have h : (t ++ byte ',' :: bytes e.1) ++ byte ':' ::
        (bytes e.2 ++ byte ',' :: l.flatMap itemBytes) = (u ++ byte ',' :: bytes f.1) ++
          byte ':' :: (bytes f.2 ++ byte ',' :: m.flatMap itemBytes) := by
      simpa [itemBytes_eq] using h
    -- the first colon ends the name; the last comma before it begins the name
    obtain ⟨hpre, -, hrest⟩ := cut (by simp [ht, hne, he.name_colon])
      (by simp [hu, hne, hf.name_colon]) h
    obtain ⟨rfl, hname⟩ := cut_last he.name_comma hf.name_comma hpre
    obtain ⟨htype, rfl⟩ := items_inj_tail hl hm he.type_colon hf.type_colon hrest
    exact ⟨rfl, by rw [Prod.ext (bytes_inj hname) (bytes_inj htype)]⟩

theorem items_inj {l m : List (String × String)} (hl : ∀ e ∈ l, CleanItem e)
    (hm : ∀ e ∈ m, CleanItem e) (h : l.flatMap itemBytes = m.flatMap itemBytes) : l = m :=
  (items_inj_tail (t := []) (u := []) hl hm nofun nofun (congrArg (byte ',' :: ·) h)).2

/-- A variant and its payload can be told from what surrounds them. -/
structure CleanVariant (v : String × Option String) : Prop where
  name_paren : byte '(' ∉ bytes v.1
  name_comma : byte ',' ∉ bytes v.1
  payload : ∀ p, v.2 = some p → ¬ [byte ')', byte ','] <:+: bytes p

theorem variantBytes_none (name : String) (rest : Bytes) :
    variantBytes (name, none) ++ rest = bytes name ++ byte ',' :: rest := by
  have hcomma : bytes "," = [byte ','] := by decide
  simp [variantBytes, hcomma]

theorem variantBytes_some (name p : String) (rest : Bytes) : variantBytes (name, some p) ++ rest =
      bytes name ++ byte '(' :: (bytes p ++ byte ')' :: byte ',' :: rest) := by
  have hopen : bytes "(" = [byte '('] := by decide
  have hclose : bytes ")" = [byte ')'] := by decide
  have hcomma : bytes "," = [byte ','] := by decide
  simp [variantBytes, hopen, hclose, hcomma]

theorem variantBytes_ne_nil (v : String × Option String) : variantBytes v ≠ [] := by
  have hcomma : bytes "," = [byte ','] := by decide
  simp [variantBytes, hcomma]

theorem variants_inj : ∀ {l m : List (String × Option String)}, (∀ v ∈ l, CleanVariant v) →
    (∀ v ∈ m, CleanVariant v) → l.flatMap variantBytes = m.flatMap variantBytes → l = m
  | [], [], _, _, _ => rfl
  | [], v :: m, _, _, h | v :: l, [], _, _, h => by simp [variantBytes_ne_nil] at h
  | (n, p) :: l, (n', p') :: m, hl, hm, h => by
    obtain ⟨hv, hls⟩ := List.forall_mem_cons.1 hl
    obtain ⟨hw, hms⟩ := List.forall_mem_cons.1 hm
    rw [List.flatMap_cons, List.flatMap_cons] at h
    cases p with
    | none =>
      cases p' with
      | none =>
        rw [variantBytes_none, variantBytes_none] at h
        obtain ⟨hname, -, hrest⟩ := cut hv.name_comma hw.name_comma h
        obtain rfl : n = n' := bytes_inj hname
        rw [variants_inj hls hms hrest]
      | some p' =>
        -- a comma or a parenthesis ends the name, and they differ
        rw [variantBytes_none, variantBytes_some] at h
        obtain ⟨-, hne, -⟩ := cut hv.name_paren hw.name_comma h
        cases hne
    | some p =>
      cases p' with
      | none =>
        rw [variantBytes_some, variantBytes_none] at h
        obtain ⟨-, hne, -⟩ := cut hv.name_comma hw.name_paren h
        cases hne
      | some p' =>
        rw [variantBytes_some, variantBytes_some] at h
        obtain ⟨hname, -, htail⟩ := cut hv.name_paren hw.name_paren h
        obtain ⟨hp, hrest⟩ := cut_pair (by decide) (hv.payload p rfl) (hw.payload p' rfl) htail
        obtain rfl : n = n' := bytes_inj hname
        rw [bytes_inj hp, variants_inj hls hms hrest]

/-! ## Interfaces -/

def newline : UInt8 := byte '\n'

/-- The lines of an interface, without their ends. -/
def recordLine {A : Type} (tag : String) (item : A → Bytes) (r : String × List A) : Bytes :=
  bytes tag ++ bytes r.1 ++ bytes ":" ++ r.2.flatMap item

def aliasLine (a : String × String) : Bytes :=
  bytes "typealias:" ++ bytes a.1 ++ bytes "=" ++ bytes a.2

def interfaceLines (i : PackageInterface) : List Bytes :=
  i.structs.entries.map (recordLine "struct:" itemBytes) ++
    (i.enums.entries.map (recordLine "enum:" variantBytes) ++
      (i.interfaces.entries.map (recordLine "interface:" itemBytes) ++
        (i.modules.entries.map (recordLine "module:" itemBytes) ++
          i.typeAliases.entries.map aliasLine)))

theorem bytes_newline : bytes "\n" = [newline] := by decide

theorem interfaceStream_eq (i : PackageInterface) :
    interfaceStream i = version ++ (interfaceLines i).flatMap (· ++ [newline]) := by
  have hrecord : ∀ {A : Type} (tag : String) (item : A → Bytes) (l : List (String × List A)),
      l.flatMap (recordBytes tag item) =
        (l.map (recordLine tag item)).flatMap (· ++ [newline]) := by
    intro A tag item l
    rw [List.flatMap_map]
    refine List.flatMap_congr fun r _ => ?_
    rw [recordBytes, recordLine, bytes_newline]
  have halias : ∀ l : List (String × String),
      l.flatMap aliasBytes = (l.map aliasLine).flatMap (· ++ [newline]) := by
    intro l
    rw [List.flatMap_map]
    refine List.flatMap_congr fun r _ => ?_
    rw [aliasBytes, aliasLine, bytes_newline]
  simp only [interfaceStream, interfaceLines, hrecord, halias, List.flatMap_append,
    List.append_assoc]

/-- A declaration whose name ends at the colon and whose items are on its line. -/
structure CleanRecord {A : Type} (CleanPart : A → Prop) (item : A → Bytes) (r : String × List A) :
    Prop where
  name_colon : byte ':' ∉ bytes r.1
  parts : ∀ a ∈ r.2, CleanPart a
  oneLine : newline ∉ bytes r.1 ∧ ∀ a ∈ r.2, newline ∉ item a

structure CleanAlias (a : String × String) : Prop where
  name_equals : byte '=' ∉ bytes a.1
  oneLine : newline ∉ bytes a.1 ∧ newline ∉ bytes a.2

/-- No name or type holds a separator that could be taken for the one behind it. -/
structure CleanInterface (i : PackageInterface) : Prop where
  structs : ∀ r ∈ i.structs.entries, CleanRecord CleanItem itemBytes r
  enums : ∀ r ∈ i.enums.entries, CleanRecord CleanVariant variantBytes r
  interfaces : ∀ r ∈ i.interfaces.entries, CleanRecord CleanItem itemBytes r
  modules : ∀ r ∈ i.modules.entries, CleanRecord CleanItem itemBytes r
  typeAliases : ∀ a ∈ i.typeAliases.entries, CleanAlias a

variable {tag : String}

theorem recordLine_inj {A : Type} {CleanPart : A → Prop} {item : A → Bytes}
    (hitems : ∀ l m : List A, (∀ a ∈ l, CleanPart a) → (∀ a ∈ m, CleanPart a) →
      l.flatMap item = m.flatMap item → l = m) {r s : String × List A}
    (hr : CleanRecord CleanPart item r) (hs : CleanRecord CleanPart item s)
    (h : recordLine tag item r = recordLine tag item s) : r = s := by
  have hcolon : bytes ":" = [byte ':'] := by decide
  simp only [recordLine, hcolon, List.append_assoc, List.singleton_append] at h
  obtain ⟨hname, -, hparts⟩ := cut hr.name_colon hs.name_colon (List.append_cancel_left h)
  exact Prod.ext (bytes_inj hname) (hitems _ _ hr.parts hs.parts hparts)

theorem aliasLine_inj {a b : String × String} (ha : CleanAlias a) (hb : CleanAlias b)
    (h : aliasLine a = aliasLine b) : a = b := by
  have hequals : bytes "=" = [byte '='] := by decide
  simp only [aliasLine, hequals, List.append_assoc, List.singleton_append] at h
  obtain ⟨hname, -, htarget⟩ := cut ha.name_equals hb.name_equals (List.append_cancel_left h)
  exact Prod.ext (bytes_inj hname) (bytes_inj htarget)

theorem newline_not_mem_recordLine {A : Type} {CleanPart : A → Prop}
    {item : A → Bytes} (htag : newline ∉ bytes tag) {r : String × List A}
    (hr : CleanRecord CleanPart item r) : newline ∉ recordLine tag item r := by
  have hcolon : newline ∉ bytes ":" := by decide
  simp only [recordLine, List.mem_append, List.mem_flatMap, not_or, not_exists, not_and]
  exact ⟨⟨⟨htag, hr.oneLine.1⟩, hcolon⟩, hr.oneLine.2⟩

variable {i j : PackageInterface}

theorem newline_not_mem_interfaceLines (h : CleanInterface i) :
    ∀ l ∈ interfaceLines i, newline ∉ l := by
  intro l hl
  simp only [interfaceLines, List.mem_append, List.mem_map] at hl
  rcases hl with ⟨r, hr, rfl⟩ | ⟨r, hr, rfl⟩ | ⟨r, hr, rfl⟩ | ⟨r, hr, rfl⟩ | ⟨a, ha, rfl⟩
  · exact newline_not_mem_recordLine (by decide) (h.structs r hr)
  · exact newline_not_mem_recordLine (by decide) (h.enums r hr)
  · exact newline_not_mem_recordLine (by decide) (h.interfaces r hr)
  · exact newline_not_mem_recordLine (by decide) (h.modules r hr)
  · have htag : newline ∉ bytes "typealias:" := by decide
    have hequals : newline ∉ bytes "=" := by decide
    simp only [aliasLine, List.mem_append, not_or]
    exact ⟨⟨⟨htag, (h.typeAliases a ha).oneLine.1⟩, hequals⟩, (h.typeAliases a ha).oneLine.2⟩

/-- The lines that begin with this byte. -/
def lined (b : UInt8) (ls : List Bytes) : List Bytes := ls.filter fun l => l.head? == some b

theorem lined_append (b : UInt8) (ls ms : List Bytes) :
    lined b (ls ++ ms) = lined b ls ++ lined b ms := List.filter_append ..

theorem lined_map {A : Type} (f : A → Bytes) {d : UInt8} (hf : ∀ a, (f a).head? = some d)
    (b : UInt8) (l : List A) : lined b (l.map f) = if d = b then l.map f else [] := by
  rw [lined, List.filter_map]
  have hconst : ((fun l => l.head? == some b) ∘ f) = fun _ => d == b := by
    funext a
    simp [hf a]
  rw [hconst]
  by_cases h : d = b <;> simp [h]

theorem head_recordLine {A : Type} (item : A → Bytes) {b : UInt8}
    (htag : (bytes tag).head? = some b) (r : String × List A) :
    (recordLine tag item r).head? = some b := by
  simp [recordLine, htag]

theorem head_aliasLine (a : String × String) : (aliasLine a).head? = some 116 := by
  have htag : (bytes "typealias:").head? = some 116 := by decide
  simp [aliasLine, htag]

theorem interfaceLines_inj (hi : CleanInterface i)
    (hj : CleanInterface j) (h : interfaceLines i = interfaceLines j) : i = j := by
  have hstruct := lined_map (recordLine "struct:" itemBytes) (d := 115)
    (head_recordLine itemBytes (by decide))
  have henum := lined_map (recordLine "enum:" variantBytes) (d := 101)
    (head_recordLine variantBytes (by decide))
  have hiface := lined_map (recordLine "interface:" itemBytes) (d := 105)
    (head_recordLine itemBytes (by decide))
  have hmodule := lined_map (recordLine "module:" itemBytes) (d := 109)
    (head_recordLine itemBytes (by decide))
  have halias := lined_map aliasLine (d := 116) head_aliasLine
  -- the lines of one kind are those that begin with its letter
  have hkind : ∀ b, lined b (interfaceLines i) = lined b (interfaceLines j) :=
    fun b => congrArg (lined b) h
  simp only [interfaceLines, lined_append, hstruct, henum, hiface, hmodule, halias] at hkind
  have hstructs : i.structs = j.structs := by
    refine BTreeMap.ext (map_inj_of (fun a ha b hb => ?_) (by simpa using hkind 115))
    exact recordLine_inj (fun _ _ => items_inj) (hi.structs a ha) (hj.structs b hb)
  have henums : i.enums = j.enums := by
    refine BTreeMap.ext (map_inj_of (fun a ha b hb => ?_) (by simpa using hkind 101))
    exact recordLine_inj (fun _ _ => variants_inj) (hi.enums a ha) (hj.enums b hb)
  have hinterfaces : i.interfaces = j.interfaces := by
    refine BTreeMap.ext (map_inj_of (fun a ha b hb => ?_) (by simpa using hkind 105))
    exact recordLine_inj (fun _ _ => items_inj) (hi.interfaces a ha) (hj.interfaces b hb)
  have hmodules : i.modules = j.modules := by
    refine BTreeMap.ext (map_inj_of (fun a ha b hb => ?_) (by simpa using hkind 109))
    exact recordLine_inj (fun _ _ => items_inj) (hi.modules a ha) (hj.modules b hb)
  have haliases : i.typeAliases = j.typeAliases := by
    refine BTreeMap.ext (map_inj_of (fun a ha b hb => ?_) (by simpa using hkind 116))
    exact aliasLine_inj (hi.typeAliases a ha) (hj.typeAliases b hb)
  cases i
  cases j
  simp_all

section Sources

variable {P : Type} {lossy : P → String} {sha256 : Bytes → Vector UInt8 32}
    {x y : List (P × String)}

/-- The paths of two packages fit on lines, and none of them is told apart from another only
by what is not Unicode. -/
structure CleanPaths (lossy : P → String) (x y : List (P × String)) : Prop where
  oneLine : ∀ f ∈ x ++ y, newline ∉ bytes (lossy f.1)
  unicode : ∀ f ∈ x, ∀ g ∈ y, lossy f.1 = lossy g.1 → f.1 = g.1

def sourceLine (sha256 : Bytes → Vector UInt8 32) (lossy : P → String) (f : P × String) : Bytes :=
  bytes (lossy f.1) ++ bytes ":" ++ bytes (fingerprintContent sha256 f.2)

theorem sourceLines_inj (hclean : CleanPaths lossy x y)
    (hcontents : ∀ f ∈ x, ∀ g ∈ y, sha256 (bytes f.2) = sha256 (bytes g.2) → bytes f.2 = bytes g.2)
    (h : x.map (sourceLine sha256 lossy) = y.map (sourceLine sha256 lossy)) : x = y := by
  refine map_inj_of (fun f hf g hg hfg => ?_) h
  have hcolon : bytes ":" = [byte ':'] := by decide
  simp only [sourceLine, hcolon, List.append_assoc, List.singleton_append] at hfg
  obtain ⟨hpath, hhash⟩ := cut_last (not_mem_hashBytes _ _ (.inr rfl))
    (not_mem_hashBytes _ _ (.inr rfl)) hfg
  exact Prod.ext (hclean.unicode f hf g hg (bytes_inj hpath))
    (bytes_inj (hcontents f hf g hg (hashBytes_inj (bytes_inj hhash))))

theorem sourcesStream_inj {le : P → P → Bool} (hclean : CleanPaths lossy x y)
    (hcontents : ∀ f ∈ x, ∀ g ∈ y, sha256 (bytes f.2) = sha256 (bytes g.2) → bytes f.2 = bytes g.2)
    (h : sourcesStream sha256 le lossy x = sourcesStream sha256 le lossy y) : x.Perm y := by
  have hline : ∀ l : List (P × String), l.flatMap (sourceBytes sha256 lossy) =
      (l.map (sourceLine sha256 lossy)).flatMap (· ++ [newline]) := by
    intro l
    rw [List.flatMap_map]
    refine List.flatMap_congr fun f _ => ?_
    rw [sourceBytes, sourceLine, bytes_newline]
  -- the stream is of the sorted files, so it decides them up to their order
  have hx := List.mergeSort_perm x fun a b => le a.1 b.1
  have hy := List.mergeSort_perm y fun a b => le a.1 b.1
  have hnewline : ∀ f : P × String, newline ∉ bytes (lossy f.1) →
      newline ∉ sourceLine sha256 lossy f := by
    intro f hf
    have hcolon : newline ∉ bytes ":" := by decide
    have hhash := not_mem_hashBytes sha256 (bytes f.2) (b := newline) (.inl rfl)
    simp only [sourceLine, List.mem_append, not_or]
    exact ⟨⟨hf, hcolon⟩, hhash⟩
  have hlines := List.append_cancel_left h
  rw [hline, hline] at hlines
  have hlines := lines_inj (fun l hl => ?_) (fun l hl => ?_) hlines
  · have hsorted := sourceLines_inj ⟨fun f hf => ?_, fun f hf g hg => ?_⟩
      (fun f hf g hg => ?_) hlines
    · exact hx.symm.trans (hsorted ▸ hy)
    · rw [List.mem_append, hx.mem_iff, hy.mem_iff, ← List.mem_append] at hf
      exact hclean.oneLine f hf
    · exact hclean.unicode f (hx.mem_iff.1 hf) g (hy.mem_iff.1 hg)
    · exact hcontents f (hx.mem_iff.1 hf) g (hy.mem_iff.1 hg)
  · obtain ⟨f, hf, rfl⟩ := List.mem_map.1 hl
    exact hnewline f (hclean.oneLine f (List.mem_append_left _ (hx.mem_iff.1 hf)))
  · obtain ⟨f, hf, rfl⟩ := List.mem_map.1 hl
    exact hnewline f (hclean.oneLine f (List.mem_append_right _ (hy.mem_iff.1 hf)))

end Sources

/-! ## Configurations and packages -/

structure CleanConfig (c : CompileInputs) : Prop where
  compilerVersion : newline ∉ bytes c.compilerVersion
  backend : newline ∉ bytes c.backend
  features : ∀ f ∈ c.features.elems, byte ',' ∉ bytes f

theorem cut_byte {t : Bytes} {a b : UInt8} {x y : Bytes}
    (h : t ++ a :: newline :: x = t ++ b :: newline :: y) : a = b ∧ x = y := by
  have h := List.append_cancel_left h
  simp only [List.cons.injEq, true_and] at h
  exact h

theorem configStream_eq (c : CompileInputs) : configStream c = version ++ (bytes "compiler:" ++
    (bytes c.compilerVersion ++ newline :: (bytes "backend:" ++ (bytes c.backend ++ newline ::
      (bytes "opt:" ++ c.optLevel :: newline :: (bytes "debug:" ++ c.debugInfo.toUInt8 ::
        newline :: (bytes "features:" ++ ((c.features.elems.map bytes).flatMap
          (· ++ [byte ',']) ++ [newline])))))))) := by
  have hcomma : bytes "," = [byte ','] := by decide
  simp only [configStream, bytes_newline, hcomma, List.append_assoc, List.flatMap_map,
    List.cons_append, List.nil_append]

theorem configStream_inj {c d : CompileInputs} (hc : CleanConfig c) (hd : CleanConfig d)
    (h : configStream c = configStream d) : c = d := by
  rw [configStream_eq, configStream_eq] at h
  have h := List.append_cancel_left (List.append_cancel_left h)
  obtain ⟨hversion, -, h⟩ := cut hc.compilerVersion hd.compilerVersion h
  obtain ⟨hbackend, -, h⟩ := cut hc.backend hd.backend (List.append_cancel_left h)
  obtain ⟨hopt, h⟩ := cut_byte h
  obtain ⟨hdebug, h⟩ := cut_byte h
  have hfeatures := lines_inj (by simpa using hc.features) (by simpa using hd.features)
    (List.append_cancel_right (List.append_cancel_left h))
  -- a switch is one byte
  have hbool : ∀ a b : Bool, a.toUInt8 = b.toUInt8 → a = b := by decide
  have helems := map_inj_of (fun f _ g _ => bytes_inj) hfeatures
  have hversion := bytes_inj hversion
  have hbackend := bytes_inj hbackend
  have hdebug := hbool _ _ hdebug
  have hset := BTreeSet.ext helems
  cases c
  cases d
  simp_all

/-- The kinds of the parts of a package are known, and each of its lines ends where it is cut. -/
structure CleanPackage (source config : Fingerprint) (deps : BTreeMap Fingerprint) : Prop where
  source : newline ∉ bytes source.hash ∧ source.kind = .source
  config : newline ∉ bytes config.hash ∧ config.kind = .config
  deps : ∀ d ∈ deps.entries, CleanItem (d.1, d.2.hash) ∧ d.2.kind = .interface

theorem packageStream_eq (source config : Fingerprint) (deps : BTreeMap Fingerprint) :
    packageStream source config deps = version ++ (bytes "source:" ++ (bytes source.hash ++
      newline :: (bytes "config:" ++ (bytes config.hash ++ newline :: (bytes "deps:" ++
        ((deps.entries.map fun d => (d.1, d.2.hash)).flatMap itemBytes ++ [newline])))))) := by
  simp only [packageStream, bytes_newline, List.append_assoc, List.flatMap_map, List.cons_append,
    List.nil_append]

theorem Fingerprint.eq_of {f g : Fingerprint} (hhash : bytes f.hash = bytes g.hash)
    (hkind : f.kind = g.kind) : f = g := by
  have hhash := bytes_inj hhash
  cases f
  cases g
  simp_all

theorem packageStream_inj {s s' c c' : Fingerprint} {d d' : BTreeMap Fingerprint}
    (hx : CleanPackage s c d) (hy : CleanPackage s' c' d')
    (h : packageStream s c d = packageStream s' c' d') : s = s' ∧ c = c' ∧ d = d' := by
  rw [packageStream_eq, packageStream_eq] at h
  have h := List.append_cancel_left (List.append_cancel_left h)
  obtain ⟨hsource, -, h⟩ := cut hx.source.1 hy.source.1 h
  obtain ⟨hconfig, -, h⟩ := cut hx.config.1 hy.config.1 (List.append_cancel_left h)
  have hclean : ∀ {s c : Fingerprint} {d : BTreeMap Fingerprint}, CleanPackage s c d →
      ∀ e ∈ d.entries.map fun d => (d.1, d.2.hash), CleanItem e := by
    intro s c d hclean e he
    obtain ⟨f, hf, rfl⟩ := List.mem_map.1 he
    exact (hclean.deps f hf).1
  have hitems := items_inj (hclean hx) (hclean hy)
    (List.append_cancel_right (List.append_cancel_left h))
  have hentries : d.entries = d'.entries := by
    refine map_inj_of (fun e he f hf hef => ?_) hitems
    obtain ⟨hname, hhash⟩ := Prod.mk.inj hef
    -- the kinds are not in the stream; the inputs have the kinds the caller gives them
    have hkind := (hx.deps e he).2.trans (hy.deps f hf).2.symm
    exact Prod.ext hname (Fingerprint.eq_of (congrArg bytes hhash) hkind)
  exact ⟨Fingerprint.eq_of hsource (hx.source.2.trans hy.source.2.symm),
    Fingerprint.eq_of hconfig (hx.config.2.trans hy.config.2.symm), BTreeMap.ext hentries⟩

theorem interfaceStream_inj (hi : CleanInterface i)
    (hj : CleanInterface j) (h : interfaceStream i = interfaceStream j) : i = j := by
  rw [interfaceStream_eq, interfaceStream_eq] at h
  have hlines := lines_inj (newline_not_mem_interfaceLines hi) (newline_not_mem_interfaceLines hj)
    (List.append_cancel_left h)
  exact interfaceLines_inj hi hj hlines

/-- No message of the first list collides with one of the second. -/
def CollisionFree (sha256 : Bytes → Vector UInt8 32) (xs ys : List Bytes) : Prop :=
  ∀ a ∈ xs, ∀ b ∈ ys, sha256 a = sha256 b → a = b

/-- What is hashed for the sources of a package: every file, and the stream of their hashes. -/
def sourceMessages {P : Type} (sha256 : Bytes → Vector UInt8 32) (le : P → P → Bool)
    (lossy : P → String) (files : List (P × String)) : List Bytes :=
  sourcesStream sha256 le lossy files :: files.map fun f => bytes f.2

theorem stream_eq {k : FingerprintKind} (hfree : sha256 a = sha256 b → a = b)
    (h : Fingerprint.mk (hashBytes sha256 a) k = ⟨hashBytes sha256 b, k⟩) : a = b :=
  hfree (hashBytes_inj (Fingerprint.mk.inj h).1)

theorem fingerprints_separate {P : Type} (sha256 : Bytes → Vector UInt8 32)
    (le : P → P → Bool) (lossy : P → String) : (∀ x y : List (P × String), CleanPaths lossy x y →
      CollisionFree sha256 (sourceMessages sha256 le lossy x) (sourceMessages sha256 le lossy y) →
        fingerprintPackageSources sha256 le lossy x = fingerprintPackageSources sha256 le lossy y →
          x.Perm y) ∧ (∀ x y : PackageInterface, CleanInterface x → CleanInterface y →
      CollisionFree sha256 [interfaceStream x] [interfaceStream y] →
        fingerprintInterface sha256 x = fingerprintInterface sha256 y → x = y) ∧
    (∀ x y : CompileInputs, CleanConfig x → CleanConfig y →
      CollisionFree sha256 [configStream x] [configStream y] →
        fingerprintConfig sha256 x = fingerprintConfig sha256 y → x = y) ∧
    (∀ (s s' c c' : Fingerprint) (d d' : BTreeMap Fingerprint),
      CleanPackage s c d → CleanPackage s' c' d' →
        CollisionFree sha256 [packageStream s c d] [packageStream s' c' d'] →
          fingerprintPackage sha256 s c d = fingerprintPackage sha256 s' c' d' →
            s = s' ∧ c = c' ∧ d = d') := by
  refine ⟨fun x y hclean hfree h => ?_, fun x y hx hy hfree h => ?_,
    fun x y hx hy hfree h => ?_, fun s s' c c' d d' hx hy hfree h => ?_⟩
  -- the contents are hashed on their own before the stream is
  · refine sourcesStream_inj hclean (fun f hf g hg => ?_)
      (stream_eq (hfree _ List.mem_cons_self _ List.mem_cons_self) h)
    exact hfree _ (List.mem_cons_of_mem _ (List.mem_map.2 ⟨f, hf, rfl⟩)) _
      (List.mem_cons_of_mem _ (List.mem_map.2 ⟨g, hg, rfl⟩))
  · exact interfaceStream_inj hx hy (stream_eq (by simpa [CollisionFree] using hfree) h)
  · exact configStream_inj hx hy (stream_eq (by simpa [CollisionFree] using hfree) h)
  · exact packageStream_inj hx hy (stream_eq (by simpa [CollisionFree] using hfree) h)

/-- The digests of the two messages hashed for two empty files. -/
def emptyFilesSha256 (message : Bytes) : Vector UInt8 32 :=
  if message = [] then
    #v[227, 176, 196, 66, 152, 252, 28, 20, 154, 251, 244, 200, 153, 111, 185, 36,
      39, 174, 65, 228, 100, 155, 147, 76, 164, 149, 153, 27, 120, 82, 184, 85]
  else
    #v[26, 134, 138, 238, 152, 91, 76, 100, 21, 154, 67, 118, 248, 168, 206, 41,
      41, 240, 193, 131, 69, 32, 4, 210, 10, 123, 14, 134, 36, 19, 228, 131]

theorem emptyFiles_separate :
    fingerprintPackageSources emptyFilesSha256 (fun p q : String => p ≤ q) id
        [("a", ""), ("b", "")] =
      fingerprintPackageSources emptyFilesSha256 (fun p q : String => p ≤ q) id
        [("b", ""), ("a", "")] ∧ [("a", ""), ("b", "")].Perm [("b", ""), ("a", "")] := by
  have hle : ("a" : String) ≤ "b" := by decide
  have hlt : ¬ ("b" : String) ≤ "a" := by decide
  have hstream : sourcesStream emptyFilesSha256 (fun p q : String => p ≤ q) id
        [("a", ""), ("b", "")] =
      sourcesStream emptyFilesSha256 (fun p q : String => p ≤ q) id [("b", ""), ("a", "")] := by
    simp [sourcesStream, List.mergeSort, List.MergeSort.Internal.splitInTwo, hle, hlt]
  have heq := congrArg (fun m => Fingerprint.mk (hashBytes emptyFilesSha256 m) .source) hstream
  refine ⟨heq, (fingerprints_separate emptyFilesSha256 (fun p q : String => p ≤ q) id).1
    [("a", ""), ("b", "")] [("b", ""), ("a", "")] ⟨?_, fun _ _ _ _ h => h⟩ ?_ heq⟩
  · decide
  · -- The stream begins with the version, and the contents are empty.
    have hempty : bytes "" = [] := by decide
    have hdigest : ∀ a : Bytes, a ≠ [] → emptyFilesSha256 a ≠ emptyFilesSha256 [] := by
      intro a ha
      rw [emptyFilesSha256, if_neg ha]
      decide
    intro a ha b hb hab
    simp only [sourceMessages, List.map_cons, List.map_nil, hempty, ← hstream, List.mem_cons,
      List.not_mem_nil, or_false, or_self] at ha hb
    rcases ha with rfl | rfl <;> rcases hb with rfl | rfl
    · rfl
    · exact absurd hab (hdigest _ (by simp [sourcesStream, version]))
    · exact absurd hab.symm (hdigest _ (by simp [sourcesStream, version]))
    · rfl

/-- The features `a` and `b`, and one feature that has both in its name. -/
def twoFeatures : CompileInputs := ⟨"0.1.0", "vm", 0, ⟨["a", "b"], by decide⟩, false⟩

def joinedFeatures : CompileInputs := ⟨"0.1.0", "vm", 0, ⟨["a,b"], by decide⟩, false⟩

theorem joinedFeatures_not_separate : twoFeatures.features ≠ joinedFeatures.features ∧
      ∀ sha256, fingerprintConfig sha256 twoFeatures = fingerprintConfig sha256 joinedFeatures := by
  have hstream : configStream twoFeatures = configStream joinedFeatures := by decide
  refine ⟨by simp [twoFeatures, joinedFeatures], fun sha256 => ?_⟩
  rw [fingerprintConfig, fingerprintConfig, hstream]

end Arth.Fingerprints
