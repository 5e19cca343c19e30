import Arth.Lib.MachineReader
import Arth.Vm.Roundtrip

/-!
# The decoder as the machine runs it

* `Checked.decodeProgram` — the decoder with its bounds checks, its sums of offsets, its slices and
  the room it asks for before it reads a table, in an `Allocator`.
* `runs_decodeOp` and its kin — each part does what the plain decoder does, without a fault.
-/

namespace Arth

open ByteReader List

/-! ## Errors -/

namespace Checked

/-- The first of the bytes shown with an error: 16 before its place, or the first one. -/
def contextStart (offset : ℕ) (bytes : List UInt8) : ℕ := min offset bytes.length - 16

/-- The bytes around the place of an error, 16 on each side. -/
def contextBytes (offset : ℕ) (bytes : List UInt8) : Attempt DecodeError (List UInt8) := do
  let stop ← Attempt.addWord (min offset bytes.length) 16
  if contextStart offset bytes < min stop bytes.length then
    Attempt.slice bytes (contextStart offset bytes) (min stop bytes.length)
  else pure []

/-- The offsets of the first `n` rows of the dump. -/
def rowOffsets (contextStart : ℕ) : ℕ → Attempt DecodeError (List ℕ)
  | 0 => pure []
  | n + 1 => do
    let rows ← rowOffsets contextStart n
    let row ← Attempt.addWord contextStart (n * 16)
    pure (rows ++ [row])

/-- The place of the error in the dump, and the offsets of its rows of 16 bytes. -/
def formatHexDump (offset : ℕ) (context : List UInt8) (contextStart : ℕ) :
    Attempt DecodeError (List ℕ) :=
  if context = [] then pure []
  else do
    let _ ← Attempt.subWord offset contextStart
    rowOffsets contextStart ((context.length + 15) / 16)

/-- `Err(e.to_string())`. -/
def raise {α : Type} (e : DecodeError) : MachineReader DecodeError α := fun bytes _ =>
  match e with
  | .text message => .error (.text message)
  | .detailed kind phase offset => do
    let context ← contextBytes offset bytes
    let _ ← formatHexDump offset context (contextStart offset bytes)
    .error (.detailed kind phase offset)

/-- An error at the current place. -/
def raiseHere {α : Type} (err : ℕ → DecodeError) : MachineReader DecodeError α :=
  MachineReader.pos >>= fun off => raise (err off)

def extractVersion (magic : List UInt8) : Attempt DecodeError (Option UInt8) :=
  if magic.length < 8 then pure none
  else do
    let start ← Attempt.slice magic 0 6
    if start ≠ magicPrefix then pure none
    else
      let v1 ← Attempt.index magic 6
      let v2 ← Attempt.index magic 7
      if isAsciiDigit v1 && isAsciiDigit v2 then pure (some ((v1 - 48) * 10 + (v2 - 48)))
      else pure none

def validateBytecodeHeader : MachineReader DecodeError UInt8 := fun bytes off =>
  if bytes.length < 8 then raise (.detailed (.tooShort 8 bytes.length) .header 0) bytes off
  else do
    let header ← Attempt.slice bytes 0 8
    let start ← Attempt.slice header 0 6
    if start ≠ magicPrefix then raise (.detailed (misidentified header) .header 0) bytes off
    else
      match ← extractVersion header with
      | none => do
        let v1 ← Attempt.index header 6
        let v2 ← Attempt.index header 7
        raise (.detailed (.other ("invalid version format: expected digits, got '" ++
          String.ofList [byteChar v1, byteChar v2] ++ "'")) .header 6) bytes off
      | some version =>
        if isVersionSupported version then pure (version, off)
        else raise (.detailed (.unsupportedVersion version minSupportedVersion maxSupportedVersion
          (maxSupportedVersion < version)) .header 6) bytes off

def readU32 : MachineReader DecodeError UInt32 :=
  MachineReader.take 4 (raise (.text "unexpected EOF while reading u32")) >>= fun bs =>
    pure (UInt32.ofNat (ofLe bs))

/-- A text of `n` bytes. -/
def readText (n : ℕ) (expected : String) (phase : DecodePhase) :
    MachineReader DecodeError String :=
  MachineReader.pos >>= fun off =>
    MachineReader.take n (raiseHere (eof expected phase)) >>= fun bs =>
      match String.fromUTF8? ⟨bs.toArray⟩ with
      | some s => pure s
      | none => raise (.detailed .invalidUtf8 phase off)

/-! ## Instructions -/

def u32Arm (f : UInt32 → Op) : MachineReader DecodeError Op := readU32 >>= fun ix => pure (f ix)

def i64Arm (f : Int64 → Op) : MachineReader DecodeError Op :=
  MachineReader.take 8 (raise (.text "unexpected EOF while reading i64")) >>= fun bs =>
    pure (f (UInt64.ofNat (ofLe bs)).toInt64)

def f64Arm (f : F64 → Op) : MachineReader DecodeError Op :=
  MachineReader.take 8 (raise (.text "unexpected EOF while reading f64")) >>= fun bs =>
    pure (f ⟨UInt64.ofNat (ofLe bs)⟩)

def byteArm (message : String) (f : UInt8 → Op) : MachineReader DecodeError Op :=
  MachineReader.byte (raise (.text message)) >>= fun b => pure (f b)

def hostArm {α : Type} (name : String) (fromU8 : UInt8 → Option α) (f : α → Op) :
    MachineReader DecodeError Op :=
  MachineReader.byte (raise (.text ("unexpected EOF while reading " ++ name))) >>= fun b =>
    match fromU8 b with
    | some o => pure (f o)
    | none => raise (.text ("unknown " ++ name ++ ": " ++ hexByte b))

def subArm (category : String) (opcode : UInt8) (table : UInt8 → Option Op) :
    MachineReader DecodeError Op :=
  MachineReader.byte (raiseHere (eof (category ++ " sub-opcode") .instructions)) >>= fun sub =>
    match table sub with
    | some o => pure o
    | none => MachineReader.pos >>= fun off => MachineReader.lift (Attempt.subWord off 1) >>=
        fun place => raise (.detailed (.unknownSubOpcode category opcode sub) .instructions place)

def hostIoArm (b : UInt8) : MachineReader DecodeError Op :=
  if b = hostCallExtDb then hostArm "HostDbOp" HostDbOp.fromU8 .hostCallDb
  else if b = hostCallExtMail then hostArm "HostMailOp" HostMailOp.fromU8 .hostCallMail
  else if b = hostCallExtCrypto then hostArm "HostCryptoOp" HostCryptoOp.fromU8 .hostCallCrypto
  else
    match HostIoOp.fromU8 b with
    | some o => pure (.hostCallIo o)
    | none => raise (.text ("unknown HostIoOp: " ++ hexByte b))

def decodeHostIo : MachineReader DecodeError Op :=
  MachineReader.byte (raise (.text "unexpected EOF while reading HostIoOp")) >>= hostIoArm

def decodeExternCall : MachineReader DecodeError Op :=
  readU32 >>= fun sym =>
    MachineReader.byte (raise (.text "unexpected EOF while reading extern argc")) >>= fun argc =>
      readU32 >>= fun floatMask =>
        byteArm "unexpected EOF while reading extern ret_kind" (.externCall sym argc floatMask)

/-- The arms that read on, and the error for the opcode at `opOffset`. -/
def operandArm (op : UInt8) (opOffset : ℕ) : MachineReader DecodeError Op :=
  match op.toNat with
  | 0x01 => u32Arm .print | 0x02 => u32Arm .printStrVal | 0x03 => u32Arm .printRaw
  | 0x04 => u32Arm .printRawStrVal | 0x10 => i64Arm .pushI64 | 0x12 => f64Arm .pushF64
  | 0x11 => byteArm "unexpected EOF while reading bool" .pushBool | 0x13 => u32Arm .pushStr
  | 0x30 => u32Arm .jump | 0x31 => u32Arm .jumpIfFalse | 0x70 => u32Arm .call
  | 0x00 => u32Arm .callSymbol | 0xE0 => decodeExternCall | 0x60 => u32Arm .localGet
  | 0x61 => u32Arm .localSet | 0xC3 => u32Arm .sharedGetByName
  | 0xCE => readU32 >>= fun f => u32Arm (.closureNew f) | 0xD0 => u32Arm .closureCall
  | 0xD4 => u32Arm .rcDecWithDeinit | 0xD8 => u32Arm .regionEnter | 0xD9 => u32Arm .regionExit
  | 0xDA => u32Arm .panic | 0xDB => u32Arm .setUnwindHandler | 0xA1 => decodeHostIo
  | 0xA2 => hostArm "HostNetOp" HostNetOp.fromU8 .hostCallNet
  | 0xA3 => hostArm "HostTimeOp" HostTimeOp.fromU8 .hostCallTime | 0xAC => u32Arm .taskRunBody
  | 0x6F => subArm "TCP" 0x6F decodeTcp | 0x7F => subArm "HTTP client" 0x7F decodeHttpClient
  | 0x5D => subArm "HTTP server" 0x5D decodeHttpServer
  | 0x4C => subArm "String" 0x4C decodeString
  | _ => raise (.detailed (.unknownOpcode op) .instructions opOffset)

def decodeArm (op : UInt8) (opOffset : ℕ) : MachineReader DecodeError Op :=
  match plainOp op with
  | some o => pure o
  | none => operandArm op opOffset

def decodeOp : MachineReader DecodeError Op :=
  MachineReader.pos >>= fun opOffset =>
    MachineReader.byte (raiseHere (eof "opcode" .instructions)) >>= fun op => decodeArm op opOffset

/-! ## Tables -/

def readString : MachineReader DecodeError String :=
  readU32 >>= fun len => readText len.toNat "string data" .stringTable

/-- The entry is checked for as a whole and read in two steps. -/
def readAsync : MachineReader DecodeError (Int64 × UInt32) := fun bytes off => do
  let stop ← Attempt.addWord off 12
  if bytes.length < stop then
    raise (eof "async dispatch entry (12 bytes)" .asyncDispatch off) bytes off
  else
    let idEnd ← Attempt.addWord off 8
    let fnIdBytes ← Attempt.slice bytes off idEnd
    let (offset, off) ← readU32 bytes idEnd
    pure (((UInt64.ofNat (ofLe fnIdBytes)).toInt64, offset), off)

def readSourceFile : MachineReader DecodeError (Option String) :=
  readU32 >>= fun len =>
    if 0 < len.toNat then
      readText len.toNat "debug entry source file" .debugInfo >>= fun file => pure (some file)
    else pure none

def readDebugEntry : MachineReader DecodeError DebugEntry := do
  let offset ← readU32
  let len ← readU32
  let functionName ← readText len.toNat "debug entry function name" .debugInfo
  let sourceFile ← readSourceFile
  let line ← readU32
  pure { offset, functionName, sourceFile, line }

def readTable {α : Type} (c : MachineReader DecodeError α) : MachineReader DecodeError (List α) :=
  readU32 >>= fun n => c.many n.toNat

/-- A table with room for all its entries asked for beforehand: `Vec::with_capacity`. -/
def readReserved {α : Type} (grants : ℕ → Bool) (c : MachineReader DecodeError α) :
    MachineReader DecodeError (List α) :=
  readU32 >>= fun n => MachineReader.reserve grants n.toNat >>= fun _ => c.many n.toNat

def readOptTable {α : Type} (c : MachineReader DecodeError α) :
    MachineReader DecodeError (List α) :=
  MachineReader.more >>= fun m => if m then readTable c else pure []

end Checked

/-- Which room is granted: for so many strings, for so many instructions. -/
structure Allocator where
  strings : ℕ → Bool
  code : ℕ → Bool

namespace Checked

def decodeBody (A : Allocator) : MachineReader DecodeError Program := do
  let strings ← readReserved A.strings readString
  let code ← readReserved A.code decodeOp
  let asyncDispatch ← readOptTable readAsync
  let debugEntries ← readOptTable readDebugEntry
  pure { strings, code, asyncDispatch, debugEntries }

def decodeProgram (A : Allocator) (bytes : List UInt8) : Attempt DecodeError Program := do
  let _ ← validateBytecodeHeader bytes 0
  let (p, _) ← decodeBody A bytes magic.length
  pure p

end Checked

/-! ## The arms -/

namespace Checked

variable {bytes : List UInt8}

theorem contextBytes_ok (offset : ℕ) (h : bytes.length < 2 ^ 63) :
    ∃ context, contextBytes offset bytes = .ok context ∧ context.length ≤ 32 := by
  have hsum : min offset bytes.length + 16 < 2 ^ 64 := by omega
  have hstart : contextStart offset bytes = min offset bytes.length - 16 := rfl
  show ∃ context, (Attempt.addWord (min offset bytes.length) 16).bind _ = .ok context ∧ _
  rw [Attempt.addWord_of_lt hsum]
  show ∃ context, (if contextStart offset bytes < min (min offset bytes.length + 16) bytes.length
    then _ else _) = Attempt.ok context ∧ _
  split_ifs with hne
  · rw [Attempt.slice_of_le (by omega) (by omega)]
    refine ⟨_, rfl, ?_⟩
    rw [length_take]
    omega
  · exact ⟨[], rfl, Nat.zero_le _⟩

theorem rowOffsets_ok {start n : ℕ} (h : start + n * 16 < 2 ^ 64) :
    ∃ rows, rowOffsets start n = .ok rows := by
  induction n with
  | zero => exact ⟨[], rfl⟩
  | succ n ih =>
    obtain ⟨rows, hrows⟩ := ih (by omega)
    refine ⟨rows ++ [start + n * 16], ?_⟩
    unfold rowOffsets
    rw [hrows, Attempt.addWord_of_lt (by omega)]
    rfl

theorem formatHexDump_ok {offset start : ℕ} {context : List UInt8} (hle : start ≤ offset)
    (hstart : start < 2 ^ 63) (hlen : context.length ≤ 32) :
    ∃ rows, formatHexDump offset context start = .ok rows := by
  unfold formatHexDump
  split_ifs with hne
  · exact ⟨[], rfl⟩
  · rw [Attempt.subWord_of_le hle]
    exact rowOffsets_ok (by omega)

variable {α : Type}

theorem raise_eq (e : DecodeError) (h : bytes.length < 2 ^ 63)
    (off : ℕ) : (raise e : MachineReader DecodeError α) bytes off = .error e := by
  cases e with
  | text message => rfl
  | detailed kind phase offset =>
    obtain ⟨context, hcontext, hlen⟩ := contextBytes_ok offset h
    have hstart : contextStart offset bytes = min offset bytes.length - 16 := rfl
    have hle : contextStart offset bytes ≤ offset := by omega
    obtain ⟨rows, hrows⟩ := formatHexDump_ok hle (by omega) hlen
    show (contextBytes offset bytes).bind _ = _
    rw [hcontext]
    show (formatHexDump offset context _).bind _ = _
    rw [hrows]
    rfl

theorem runs_raise (e : DecodeError) :
    Runs (raise e : MachineReader DecodeError α) (Reader.fail fun _ => e) :=
  Runs.fail fun _ off hin => raise_eq e hin.fits off

theorem runs_raiseHere (err : ℕ → DecodeError) :
    Runs (raiseHere err : MachineReader DecodeError α) (Reader.fail err) :=
  Runs.fail fun _ off hin => raise_eq (err off) hin.fits off

theorem runs_readU32 : Runs readU32 Arth.readU32 :=
  (Runs.take (by decide) (runs_raise _)).bind fun _ => Runs.pure _

theorem runs_readText {n : ℕ} (hn : n < 2 ^ 63) (expected : String) (phase : DecodePhase) :
    Runs (readText n expected phase) (Arth.readText n expected phase) := by
  refine Runs.pos fun off => (Runs.take hn (runs_raiseHere _)).bind fun bs => ?_
  cases String.fromUTF8? ⟨bs.toArray⟩ with
  | some s => exact Runs.pure s
  | none => exact runs_raise _

theorem runs_u32Arm (f : UInt32 → Op) : Runs (u32Arm f) (Arth.u32Arm f) :=
  runs_readU32.bind fun _ => Runs.pure _

theorem runs_i64Arm (f : Int64 → Op) : Runs (i64Arm f) (Arth.i64Arm f) :=
  (Runs.take (by decide) (runs_raise _)).bind fun _ => Runs.pure _

theorem runs_f64Arm (f : F64 → Op) : Runs (f64Arm f) (Arth.f64Arm f) :=
  (Runs.take (by decide) (runs_raise _)).bind fun _ => Runs.pure _

theorem runs_byteArm (message : String) (f : UInt8 → Op) :
    Runs (byteArm message f) (Arth.byteArm message f) :=
  (Runs.byte (runs_raise _)).bind fun _ => Runs.pure _

theorem runs_hostArm (name : String) (fromU8 : UInt8 → Option α) (f : α → Op) :
    Runs (hostArm name fromU8 f) (Arth.hostArm name fromU8 f) := by
  refine (Runs.byte (runs_raise _)).bind fun b => ?_
  cases fromU8 b with
  | some o => exact Runs.pure _
  | none => exact runs_raise _

theorem runs_subArm (category : String) (opcode : UInt8) (table : UInt8 → Option Op) :
    Runs (subArm category opcode table) (Arth.subArm category opcode table) := by
  refine (Runs.byte (runs_raiseHere _)).bind fun sub => ?_
  cases table sub with
  | some o => exact Runs.pure o
  | none =>
    refine Runs.fail fun bytes off hin => ?_
    -- The place is the byte just read, so there is one in front of the offset.
    have hsub : (Attempt.subWord off 1 : Attempt DecodeError ℕ) = .ok (off - 1) :=
      Attempt.subWord_of_le hin.pos
    show ((Attempt.subWord off 1).bind fun place => .ok (place, off)).bind _ = _
    rw [hsub]
    exact raise_eq (.detailed (.unknownSubOpcode category opcode sub) .instructions (off - 1))
      hin.fits off

theorem runs_hostIoArm (b : UInt8) : Runs (hostIoArm b) (Arth.hostIoArm b) := by
  unfold hostIoArm Arth.hostIoArm
  by_cases hdb : b = hostCallExtDb
  · rw [if_pos hdb, if_pos hdb]
    exact runs_hostArm _ _ _
  rw [if_neg hdb, if_neg hdb]
  by_cases hmail : b = hostCallExtMail
  · rw [if_pos hmail, if_pos hmail]
    exact runs_hostArm _ _ _
  rw [if_neg hmail, if_neg hmail]
  by_cases hcrypto : b = hostCallExtCrypto
  · rw [if_pos hcrypto, if_pos hcrypto]
    exact runs_hostArm _ _ _
  rw [if_neg hcrypto, if_neg hcrypto]
  cases HostIoOp.fromU8 b with
  | some o => exact Runs.pure _
  | none => exact runs_raise _

theorem runs_decodeHostIo : Runs decodeHostIo Arth.decodeHostIo :=
  (Runs.byte (runs_raise _)).bind runs_hostIoArm

theorem runs_decodeExternCall : Runs decodeExternCall Arth.decodeExternCall :=
  runs_readU32.bind fun _ => (Runs.byte (runs_raise _)).bind fun _ =>
    runs_readU32.bind fun _ => runs_byteArm _ _

theorem runs_operandArm (op : UInt8) (opOffset : ℕ) :
    Runs (operandArm op opOffset) (Arth.operandArm op opOffset) := by
  unfold operandArm Arth.operandArm
  generalize op.toNat = k
  split
  all_goals first
    | exact runs_u32Arm _
    | exact runs_i64Arm _
    | exact runs_f64Arm _
    | exact runs_byteArm _ _
    | exact runs_decodeExternCall
    | exact runs_readU32.bind fun _ => runs_u32Arm _
    | exact runs_decodeHostIo
    | exact runs_hostArm _ _ _
    | exact runs_subArm _ _ _
    | exact runs_raise _
    -- No arm for the byte in the first decoder, so none in the second.
    | (split <;> first
        | exact runs_raise _
        | contradiction)

theorem runs_decodeArm (op : UInt8) (opOffset : ℕ) :
    Runs (decodeArm op opOffset) (Arth.decodeArm op opOffset) := by
  unfold decodeArm Arth.decodeArm
  cases plainOp op with
  | some o => exact Runs.pure o
  | none => exact runs_operandArm op opOffset

theorem runs_decodeOp : Runs decodeOp Arth.decodeOp :=
  Runs.pos fun opOffset => (Runs.byte (runs_raiseHere _)).bind fun op => runs_decodeArm op opOffset

/-! ## The tables -/

theorem runs_readString : Runs readString Arth.readString := by
  refine runs_readU32.bind fun len => runs_readText ?_ _ _
  have := len.toNat_lt
  omega

theorem readU32_eq {off : ℕ} (h : off + 4 ≤ bytes.length) : Arth.readU32 bytes off =
      .ok (UInt32.ofNat (ofLe ((bytes.drop off).take 4)), off + 4) := by
  show Reader.bind (Reader.take 4 _) _ bytes off = _
  unfold Reader.bind Reader.take
  rw [if_neg (by omega)]
  rfl

theorem runs_readAsync : Runs readAsync Arth.readAsync := by
  intro bytes off hin
  have hfits := hin.fits
  have hle := hin.le
  show (Attempt.addWord off 12).bind _ = .ofExcept (Reader.bind (Reader.take 12 _) _ bytes off) ∧
    ∀ a off', Reader.bind (Reader.take 12 _) _ bytes off = .ok (a, off') → _
  rw [Attempt.addWord_of_lt (by omega)]
  unfold Reader.bind Reader.take
  show (if bytes.length < off + 12 then _ else _) = _ ∧ _
  by_cases hlen : bytes.length < off + 12
  · rw [if_pos hlen, if_pos hlen, raise_eq _ hfits]
    refine ⟨rfl, fun a off' heq => ?_⟩
    cases heq
  · rw [if_neg hlen, if_neg hlen, Attempt.addWord_of_lt (by omega)]
    show (Attempt.slice bytes off (off + 8)).bind _ = _ ∧ _
    rw [Attempt.slice_of_le (by omega) (by omega), Nat.add_sub_cancel_left]
    have hin' : Inside bytes (off + 8) := ⟨hfits, by omega, by omega⟩
    have hread := (runs_readU32 bytes (off + 8) hin').1
    rw [readU32_eq (by omega)] at hread
    rw [hread]
    have hid : ((bytes.drop off).take 12).take 8 = (bytes.drop off).take 8 := by
      rw [take_take]
      rfl
    have hoffset : ((bytes.drop off).take 12).drop 8 = (bytes.drop (off + 8)).take 4 := by
      rw [drop_take, drop_drop]
    constructor
    · show Attempt.ok _ = Attempt.ok _
      rw [hid, hoffset]
    · intro a off' heq
      cases heq
      exact ⟨by omega, by omega⟩

theorem runs_readSourceFile : Runs readSourceFile Arth.readSourceFile := by
  refine runs_readU32.bind fun len => ?_
  have hlen := len.toNat_lt
  by_cases hpos : 0 < len.toNat
  · rw [if_pos hpos, if_pos hpos]
    exact (runs_readText (by omega) _ _).bind fun _ => Runs.pure _
  · rw [if_neg hpos, if_neg hpos]
    exact Runs.pure none

theorem runs_readDebugEntry : Runs readDebugEntry Arth.readDebugEntry := by
  refine runs_readU32.bind fun offset => runs_readU32.bind fun len => ?_
  have hlen := len.toNat_lt
  exact (runs_readText (by omega) _ _).bind fun _ => runs_readSourceFile.bind fun _ =>
    runs_readU32.bind fun _ => Runs.pure _

theorem runs_readOptTable {c : MachineReader DecodeError α} {r : Reader DecodeError α}
    (h : Runs c r) : Runs (readOptTable c) (Arth.readOptTable r) :=
  Runs.more (runs_readU32.bind fun n => h.many n.toNat) (Runs.pure [])

end Checked

end Arth
