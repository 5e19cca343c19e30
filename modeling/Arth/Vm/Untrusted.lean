import Arth.Vm.Decoder

/-!
# Decoding untrusted bytes

* `Consumed` — what the bytes in front of the optional tables of a decoded program are.
* `Granted` — the allocator grants room for the entries that the two counts of the file announce.
* `DecodesSafely`, `decodesSafely_iff` — the decoder answers, and consumes what it should, exactly if that room is
  granted. Nothing else can go wrong.
-/

namespace Arth

open ByteReader List

/-- The bytes of a slice: a slice has fewer than `2 ^ 63`. -/
structure Slice where
  bytes : List UInt8
  fits : bytes.length < 2 ^ 63

/-- The tables that older files end before. -/
def optionalTables : Reader DecodeError (List (Int64 × UInt32) × List DebugEntry) := do
  let asyncDispatch ← readOptTable readAsync
  let debugEntries ← readOptTable readDebugEntry
  pure (asyncDispatch, debugEntries)

/-- **The bytes of a decoded program**: the header, the counted strings, the counted instructions,
each of which is one instruction wherever it stands, and the optional tables. -/
def Consumed (bytes : List UInt8) (p : Program) : Prop :=
  ∃ header instructions tables, bytes = header ++
      (lenLe p.strings.length ++ p.strings.flatMap encodeString) ++
      (lenLe p.code.length ++ instructions.flatten) ++ tables ∧
    header.length = magic.length ∧ List.Forall₂ (Reads decodeOp) instructions p.code ∧
    ∃ stop, optionalTables bytes (bytes.length - tables.length) =
      .ok ((p.asyncDispatch, p.debugEntries), stop)

variable {bs : List UInt8}

theorem u32Le_ofNat (h : bs.length = 4) : u32Le (UInt32.ofNat (ofLe bs)) = bs := by
  have hlt := ofLe_lt bs
  rw [h] at hlt
  unfold u32Le
  rw [toNat_ofNat_u32 hlt, ← h]
  exact toLe_ofLe bs

theorem lenLe_toNat (n : UInt32) : lenLe n.toNat = u32Le n := by
  unfold lenLe
  rw [UInt32.ofNat_toNat]

theorem eats_readU32 : Eats readU32 fun piece n => piece = u32Le n := by
  refine ((Eats.take 4 _).bind fun bs => Eats.pure _).mono ?_
  rintro piece n ⟨bs, first, second, rfl, ⟨rfl, hlen⟩, rfl, rfl⟩
  rw [append_nil, u32Le_ofNat hlen]

theorem asBytes_of_fromUTF8 {s : String}
    (h : String.fromUTF8? ⟨bs.toArray⟩ = some s) : asBytes s = bs := by
  unfold String.fromUTF8? at h
  split at h
  · rw [← Option.some.inj h]
    rfl
  · cases h

theorem eats_readText (n : ℕ) (expected : String) (phase : DecodePhase) :
    Eats (readText n expected phase) fun piece s => piece = asBytes s ∧ piece.length = n := by
  -- The offset taken beforehand is only for the error.
  refine Eats.pos fun off => ((Eats.take n _).bind
    (D := fun bs piece s => piece = [] ∧ asBytes s = bs) fun bs => ?_).mono ?_
  · cases hs : String.fromUTF8? ⟨bs.toArray⟩ with
    | none => exact Eats.fail _ _
    | some s =>
      refine (Eats.pure s).mono ?_
      rintro piece s' ⟨rfl, rfl⟩
      exact ⟨rfl, asBytes_of_fromUTF8 hs⟩
  · rintro piece s ⟨bs, first, second, rfl, ⟨rfl, hlen⟩, rfl, hs⟩
    rw [append_nil]
    exact ⟨hs.symm, hlen⟩

theorem eats_readString : Eats readString fun piece s => piece = encodeString s := by
  refine (eats_readU32.bind fun len => eats_readText len.toNat _ _).mono ?_
  rintro piece s ⟨len, first, second, rfl, rfl, rfl, hlen⟩
  unfold encodeString
  rw [hlen, lenLe_toNat]

theorem eats_readTable {α : Type} {r : Reader DecodeError α} {C : List UInt8 → α → Prop}
    (h : Eats r C) : Eats (readTable r) fun piece as =>
      ∃ pieces, piece = lenLe as.length ++ pieces.flatten ∧ Forall₂ C pieces as := by
  refine (eats_readU32.bind fun n => h.many n.toNat).mono ?_
  rintro piece as ⟨n, first, second, rfl, rfl, hlen, pieces, rfl, hall⟩
  exact ⟨pieces, by rw [hlen, lenLe_toNat], hall⟩

/-! ## Instructions -/

theorem local_readU32 : Local readU32 := (Local.take 4 _).bind fun _ => Local.pure _

theorem local_u32Arm (f : UInt32 → Op) : Local (u32Arm f) := local_readU32.bind fun _ => Local.pure _

theorem local_i64Arm (f : Int64 → Op) : Local (i64Arm f) := (Local.take 8 _).bind fun _ => Local.pure _

theorem local_f64Arm (f : F64 → Op) : Local (f64Arm f) := (Local.take 8 _).bind fun _ => Local.pure _

theorem local_byteArm (message : String) (f : UInt8 → Op) : Local (byteArm message f) :=
  (Local.byte _).bind fun _ => Local.pure _

theorem local_hostArm {α : Type} (name : String) (fromU8 : UInt8 → Option α) (f : α → Op) :
    Local (hostArm name fromU8 f) := by
  refine (Local.byte _).bind fun b => ?_
  cases fromU8 b with
  | some o => exact Local.pure _
  | none => exact Local.fail _

theorem local_subArm (category : String) (opcode : UInt8) (table : UInt8 → Option Op) :
    Local (subArm category opcode table) := by
  refine (Local.byte _).bind fun sub => ?_
  cases table sub with
  | some o => exact Local.pure o
  | none => exact Local.fail _

theorem local_hostIoArm (b : UInt8) : Local (hostIoArm b) := by
  unfold hostIoArm
  split_ifs
  case neg =>
    cases HostIoOp.fromU8 b with
    | some o => exact Local.pure _
    | none => exact Local.fail _
  all_goals exact local_hostArm _ _ _

theorem local_decodeExternCall : Local decodeExternCall :=
  local_readU32.bind fun _ => (Local.byte _).bind fun _ => local_readU32.bind fun _ =>
    local_byteArm _ _

theorem eats_operandArm (op : UInt8) (opOffset : ℕ) : Eats (operandArm op opOffset)
    fun piece o => ∀ opOffset', Reads (operandArm op opOffset') piece o := by
  unfold operandArm
  split
  case h_32 => exact Eats.fail _ _
  all_goals refine Eats.mono ?_ (fun _ _ h _ => h)
  all_goals first
    | exact local_u32Arm _
    | exact local_i64Arm _
    | exact local_f64Arm _
    | exact local_byteArm _ _
    | exact local_decodeExternCall
    | exact local_readU32.bind fun _ => local_u32Arm _
    | exact (Local.byte _).bind local_hostIoArm
    | exact local_hostArm _ _ _
    | exact local_subArm _ _ _

theorem eats_decodeArm (op : UInt8) (opOffset : ℕ) : Eats (decodeArm op opOffset)
    fun piece o => ∀ opOffset', Reads (decodeArm op opOffset') piece o := by
  unfold decodeArm
  cases plainOp op with
  | some o => exact (Local.pure o).mono fun _ _ h _ => h
  | none => exact eats_operandArm op opOffset

theorem local_decodeOp : Local decodeOp := by
  refine Eats.pos fun off => ((Eats.byte _).bind fun op => eats_decodeArm op off).mono ?_
  rintro piece o ⟨op, first, second, rfl, rfl, harm⟩
  exact decodeOp_of_arm harm

theorem forall₂_eq_map {α : Type} {f : α → List UInt8} {pieces : List (List UInt8)} {as : List α}
    (h : Forall₂ (fun piece a => piece = f a) pieces as) : pieces.flatten = as.flatMap f := by
  induction h with
  | nil => rfl
  | cons hhead _ ih => rw [flatten_cons, flatMap_cons, hhead, ih]

theorem eats_tables : Eats (readTable readString >>= fun strings =>
    readTable decodeOp >>= fun code => (pure (strings, code) : Reader DecodeError _))
    fun piece q => ∃ instructions, piece =
      (lenLe q.1.length ++ q.1.flatMap encodeString) ++ (lenLe q.2.length ++ instructions.flatten) ∧
        Forall₂ (Reads decodeOp) instructions q.2 := by
  refine ((eats_readTable eats_readString).bind fun strings =>
    (eats_readTable local_decodeOp).bind fun code => Eats.pure (strings, code)).mono ?_
  rintro piece q ⟨strings, first, _, rfl, ⟨pieces, rfl, hall⟩, code, second, third, rfl,
    ⟨instructions, rfl, hcode⟩, rfl, rfl⟩
  refine ⟨instructions, ?_, hcode⟩
  rw [append_nil, forall₂_eq_map hall]

theorem validate_length {bytes : List UInt8} {v : UInt8} (h : validateBytecodeHeader bytes = .ok v) :
    magic.length ≤ bytes.length := by
  unfold validateBytecodeHeader at h
  split_ifs at h with hlen
  all_goals exact le_of_not_gt hlen

theorem consumed_of_ok {bytes : List UInt8} {p : Program} (h : decodeProgram bytes = .ok p) :
    Consumed bytes p := by
  unfold decodeProgram at h
  cases hheader : validateBytecodeHeader bytes with
  | error e =>
    rw [hheader] at h
    cases h
  | ok v =>
    rw [hheader] at h
    have hlen := validate_length hheader
    cases hbody : decodeBody bytes magic.length with
    | error e =>
      rw [hbody] at h
      cases h
    | ok q =>
      obtain ⟨p', stop⟩ := q
      rw [hbody] at h
      cases h
      obtain ⟨strings, off₁, hstrings, hbody⟩ := bind_eq_ok hbody
      obtain ⟨code, off₂, hcode, hbody⟩ := bind_eq_ok hbody
      obtain ⟨asyncDispatch, off₃, hasync, hbody⟩ := bind_eq_ok hbody
      obtain ⟨debugEntries, off₄, hdebug, hbody⟩ := bind_eq_ok hbody
      cases hbody
      have htables : (readTable readString >>= fun strings => readTable decodeOp >>= fun code =>
          (pure (strings, code) : Reader DecodeError _)) bytes magic.length =
          .ok ((strings, code), off₂) := (bind_of_ok hstrings).trans (bind_of_ok hcode)
      obtain ⟨piece, tables, hdrop, rfl, instructions, rfl, hall⟩ :=
        eats_tables bytes magic.length _ off₂ htables hlen
      dsimp only at hdrop
      refine ⟨bytes.take magic.length, instructions, tables, ?_, ?_, hall, stop, ?_⟩
      · rw [append_assoc (bytes.take _), append_assoc (bytes.take _), ← hdrop, take_append_drop]
      · rw [length_take]
        exact Nat.min_eq_left hlen
      · have hoff : bytes.length - tables.length = magic.length + (lenLe strings.length ++
            strings.flatMap encodeString ++ (lenLe code.length ++ instructions.flatten)).length := by
          have hlength := congrArg length hdrop
          rw [length_drop, length_append] at hlength
          omega
        rw [hoff]
        exact (bind_of_ok hasync).trans (bind_of_ok hdebug)

/-- The file announces `n` strings. -/
def AnnouncesStrings (bytes : List UInt8) (n : UInt32) : Prop :=
  ∃ version off, validateBytecodeHeader bytes = .ok version ∧
    readU32 bytes magic.length = .ok (n, off)

/-- Behind its strings, the file announces `n` instructions. -/
def AnnouncesCode (bytes : List UInt8) (n : UInt32) : Prop :=
  ∃ version strings off off', validateBytecodeHeader bytes = .ok version ∧
    readTable readString bytes magic.length = .ok (strings, off) ∧
    readU32 bytes off = .ok (n, off')

def Granted (A : Allocator) (bytes : List UInt8) : Prop :=
  (∀ n, AnnouncesStrings bytes n → A.strings n.toNat = true) ∧
    ∀ n, AnnouncesCode bytes n → A.code n.toNat = true

namespace Checked

theorem index_eq {bytes : List UInt8} {i : ℕ} (h : i < bytes.length) :
    (Attempt.index bytes i : Attempt DecodeError UInt8) = .ok (bytes.getD i 0) := by
  unfold Attempt.index
  rw [getElem?_eq_getElem h, getD_eq_getElem?_getD, getElem?_eq_getElem h]
  rfl

theorem extractVersion_eq {header : List UInt8} (h : header.length = 8) :
    extractVersion header = .ok (Arth.extractVersion header) := by
  have hslice : (Attempt.slice header 0 6 : Attempt DecodeError _) = .ok (header.take 6) :=
    Attempt.slice_of_le (Nat.zero_le 6) (by omega)
  have hshort : ¬ header.length < 8 := by omega
  unfold extractVersion Arth.extractVersion
  rw [if_neg hshort, if_neg hshort, hslice]
  show (if header.take 6 ≠ magicPrefix then _ else _) = _
  by_cases hmagic : header.take 6 ≠ magicPrefix
  · rw [if_pos hmagic, if_pos hmagic]
    rfl
  · rw [if_neg hmagic, if_neg hmagic, index_eq (by omega), index_eq (by omega)]
    show (if isAsciiDigit (header.getD 6 0) && isAsciiDigit (header.getD 7 0) then _ else _) = _
    split_ifs with hdigits
    · rw [if_pos hdigits]
      rfl
    · rw [if_neg hdigits]
      rfl

theorem validate_eq {bytes : List UInt8} (h : bytes.length < 2 ^ 63) (off : ℕ) :
    validateBytecodeHeader bytes off =
      .ofExcept ((Arth.validateBytecodeHeader bytes).map fun v => (v, off)) := by
  unfold validateBytecodeHeader Arth.validateBytecodeHeader
  by_cases hshort : bytes.length < 8
  · rw [if_pos hshort, if_pos hshort, raise_eq _ h]
    rfl
  · rw [if_neg hshort, if_neg hshort]
    have hlen : (bytes.take 8).length = 8 := by
      rw [length_take]
      omega
    have hheader : (Attempt.slice bytes 0 8 : Attempt DecodeError _) = .ok (bytes.take 8) :=
      Attempt.slice_of_le (Nat.zero_le 8) (by omega)
    have hstart : (Attempt.slice (bytes.take 8) 0 6 : Attempt DecodeError _) =
        .ok ((bytes.take 8).take 6) := Attempt.slice_of_le (Nat.zero_le 6) (by omega)
    rw [hheader]
    show (Attempt.slice (bytes.take 8) 0 6).bind _ = _
    rw [hstart]
    show (if (bytes.take 8).take 6 ≠ magicPrefix then _ else _) = _
    split_ifs with hmagic
    · rw [raise_eq _ h]
      rw [if_pos hmagic]
      rfl
    · rw [if_neg hmagic]
      rw [extractVersion_eq hlen]
      cases Arth.extractVersion (bytes.take 8) with
      | none =>
        rw [index_eq (by omega)]
        rw [index_eq (by omega)]
        exact raise_eq (.detailed (.other ("invalid version format: expected digits, got '" ++
          String.ofList [byteChar ((bytes.take 8).getD 6 0), byteChar ((bytes.take 8).getD 7 0)] ++
            "'")) .header 6) h off
      | some version =>
        show (if isVersionSupported version then _ else _) = Attempt.ofExcept (Except.map _
          (if isVersionSupported version then _ else _))
        by_cases hsupported : isVersionSupported version = true
        · rw [if_pos hsupported, if_pos hsupported]
          rfl
        · rw [if_neg hsupported, if_neg hsupported]
          exact raise_eq _ h off

section

variable {α : Type} {grants : ℕ → Bool} {c : MachineReader DecodeError α}
  {r : Reader DecodeError α} {bytes : List UInt8} {off off' : ℕ}

theorem readReserved_eq (h : Runs c r) (hin : Inside bytes off)
    (hgrants : ∀ n off', Arth.readU32 bytes off = .ok (n, off') → grants n.toNat = true) :
    readReserved grants c bytes off = .ofExcept (Arth.readTable r bytes off) := by
  have hread := (runs_readU32 bytes off hin).1
  show (readU32 bytes off).bind _ = .ofExcept (Reader.bind Arth.readU32 _ bytes off)
  rw [hread]
  unfold Reader.bind
  cases hcount : Arth.readU32 bytes off with
  | error e => rfl
  | ok p =>
    obtain ⟨n, off'⟩ := p
    show ((if grants n.toNat then (.ok ((), off') : Attempt DecodeError _)
      else .fault .allocation).bind _) = _
    rw [if_pos (hgrants n off' hcount)]
    exact (h.many n.toNat bytes off' (runs_readU32.inside hin hcount)).1

theorem readReserved_fault (hin : Inside bytes off) {n : UInt32}
    (hcount : Arth.readU32 bytes off = .ok (n, off')) (hgrants : grants n.toNat = false) :
    readReserved grants c bytes off = .fault .allocation := by
  have hread := (runs_readU32 bytes off hin).1
  show (readU32 bytes off).bind _ = _
  rw [hread, hcount]
  show ((if grants n.toNat then (.ok ((), off') : Attempt DecodeError _)
    else .fault .allocation).bind _) = _
  rw [if_neg (by rw [hgrants]; decide)]
  rfl

end

theorem runs_readTable {α : Type} {c : MachineReader DecodeError α} {r : Reader DecodeError α}
    (h : Runs c r) : Runs (readTable c) (Arth.readTable r) :=
  runs_readU32.bind fun n => h.many n.toNat

end Checked

/-- **The decoder is safe on an input**: it answers with a program or an error, and what it answers
with a program for is consumed as it should be. -/
def DecodesSafely (A : Allocator) (s : Slice) : Prop :=
  (∃ answer, Checked.decodeProgram A s.bytes = .ofExcept answer) ∧
    ∀ p, Checked.decodeProgram A s.bytes = .ok p → Consumed s.bytes p

variable {A : Allocator} {s : Slice}

theorem inside_of_header {version : UInt8} (h : validateBytecodeHeader s.bytes = .ok version) :
    Inside s.bytes magic.length :=
  ⟨s.fits, by decide, validate_length h⟩

theorem decodeProgram_of_header {version : UInt8}
    (h : validateBytecodeHeader s.bytes = .ok version) : Checked.decodeProgram A s.bytes =
      (Checked.decodeBody A s.bytes magic.length).bind fun q => .ok q.1 := by
  show (Checked.validateBytecodeHeader s.bytes 0).bind _ = _
  rw [Checked.validate_eq s.fits, h]
  rfl

theorem decodeProgram_of_granted (h : Granted A s.bytes) :
    Checked.decodeProgram A s.bytes = .ofExcept (decodeProgram s.bytes) := by
  cases hheader : validateBytecodeHeader s.bytes with
  | error e =>
    show (Checked.validateBytecodeHeader s.bytes 0).bind _ = _
    unfold decodeProgram
    rw [Checked.validate_eq s.fits, hheader]
    rfl
  | ok version =>
    have hin := inside_of_header hheader
    rw [decodeProgram_of_header hheader]
    unfold decodeProgram
    rw [hheader]
    have hbody : Checked.decodeBody A s.bytes magic.length =
        .ofExcept (decodeBody s.bytes magic.length) := by
      refine bind_ofExcept (Checked.readReserved_eq Checked.runs_readString hin
        fun n off hn => h.1 n ⟨version, off, hheader, hn⟩) fun strings off hstrings => ?_
      have hin₁ := (Checked.runs_readTable Checked.runs_readString).inside hin hstrings
      refine bind_ofExcept (Checked.readReserved_eq Checked.runs_decodeOp hin₁
        fun n off' hn => h.2 n ⟨version, strings, off, off', hheader, hstrings, hn⟩)
        fun code off' hcode => ?_
      have hin₂ := (Checked.runs_readTable Checked.runs_decodeOp).inside hin₁ hcode
      exact (((Checked.runs_readOptTable Checked.runs_readAsync).bind fun asyncDispatch =>
        (Checked.runs_readOptTable Checked.runs_readDebugEntry).bind fun debugEntries =>
          Runs.pure _) s.bytes off' hin₂).1
    rw [hbody]
    cases decodeBody s.bytes magic.length with
    | error e => rfl
    | ok q => rfl

theorem strings_of_decodes (h : DecodesSafely A s) (n : UInt32) (hn : AnnouncesStrings s.bytes n) :
    A.strings n.toNat = true := by
  obtain ⟨version, off, hheader, hcount⟩ := hn
  obtain ⟨⟨answer, hanswer⟩, -⟩ := h
  by_contra hgrants
  have hgrants : A.strings n.toNat = false := by simpa using hgrants
  rw [decodeProgram_of_header hheader] at hanswer
  have hfault : Checked.decodeBody A s.bytes magic.length = .fault .allocation := by
    show (Checked.readReserved A.strings Checked.readString s.bytes magic.length).bind _ = _
    rw [Checked.readReserved_fault (inside_of_header hheader) hcount hgrants]
    rfl
  rw [hfault] at hanswer
  cases answer <;> cases hanswer

theorem code_of_decodes (h : DecodesSafely A s) (n : UInt32) (hn : AnnouncesCode s.bytes n) :
    A.code n.toNat = true := by
  obtain ⟨version, strings, off, off', hheader, htable, hcount⟩ := hn
  have hin := inside_of_header hheader
  have hgranted := strings_of_decodes h
  obtain ⟨⟨answer, hanswer⟩, -⟩ := h
  by_contra hgrants
  have hgrants : A.code n.toNat = false := by simpa using hgrants
  rw [decodeProgram_of_header hheader] at hanswer
  have hfault : Checked.decodeBody A s.bytes magic.length = .fault .allocation := by
    show (Checked.readReserved A.strings Checked.readString s.bytes magic.length).bind _ = _
    rw [Checked.readReserved_eq Checked.runs_readString hin fun m off hm =>
      hgranted m ⟨version, off, hheader, hm⟩, htable]
    show (Checked.readReserved A.code Checked.decodeOp s.bytes off).bind _ = _
    rw [Checked.readReserved_fault
      ((Checked.runs_readTable Checked.runs_readString).inside hin htable) hcount hgrants]
    rfl
  rw [hfault] at hanswer
  cases answer <;> cases hanswer

/-- **Exactly when decoding is safe**: room is granted for the strings and the instructions the
file announces. -/
theorem decodesSafely_iff (A : Allocator) (s : Slice) : DecodesSafely A s ↔ Granted A s.bytes := by
  constructor
  · intro h
    exact ⟨strings_of_decodes h, code_of_decodes h⟩
  · intro h
    have heq := decodeProgram_of_granted h
    refine ⟨⟨_, heq⟩, fun p hp => consumed_of_ok ?_⟩
    rw [heq] at hp
    cases hplain : decodeProgram s.bytes with
    | error e =>
      rw [hplain] at hp
      cases hp
    | ok p' =>
      rw [hplain] at hp
      cases hp
      rfl

/-- A header and a count of strings near the largest. -/
def hugeCount : Slice := ⟨magic ++ [255, 255, 255, 255], by decide⟩

/-- An allocator with 64 GiB. A string takes 24 bytes and an instruction 16. -/
def ordinaryMemory : Allocator where
  strings n := 24 * n ≤ 2 ^ 36
  code n := 16 * n ≤ 2 ^ 36

theorem hugeCount_not_safe : ¬ DecodesSafely ordinaryMemory hugeCount := by
  rintro ⟨⟨answer, hanswer⟩, -⟩
  cases answer <;> cases hanswer

end Arth
