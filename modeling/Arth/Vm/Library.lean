import Arth.Vm.Linker
import Arth.Vm.Roundtrip

/-!
# Library files

`encodeLibrary` and `decodeLibraryDetailed`: an identifier, a whole program, and the export
table. A file without the library header is read as a program, by a second bytecode decoder.

* `decodeLibraryDetailed_encodeLibrary` — a library file reads back.
* `Op.InDetailed` — the instructions that the second decoder knows.
* `libraryRoundTrips_iff` — exactly the libraries whose file and whose bare program both do.
-/

namespace Arth

open ByteReader List Option

/-! ## The second bytecode decoder -/

def readU32Detailed (phase : DecodePhase) : Reader DecodeError UInt32 :=
  Reader.take 4 (eof "u32 value" phase) >>= fun bs => pure (UInt32.ofNat (ofLe bs))

def readStringDetailed : Reader DecodeError String :=
  readU32Detailed .stringTable >>= fun len => readText len.toNat "string data" .stringTable

def u32ArmDetailed (f : UInt32 → Op) : Reader DecodeError Op :=
  readU32Detailed .instructions >>= fun ix => pure (f ix)

/-- The instructions after their opcode; every other opcode is unknown here. -/
def armDetailed (op : UInt8) (opOffset : Nat) : Reader DecodeError Op :=
  match op with
  | 0x01 => u32ArmDetailed .print
  | 0xFF => pure .halt
  | 0x02 => u32ArmDetailed .printStrVal
  | 0x03 => u32ArmDetailed .printRaw
  | 0x04 => u32ArmDetailed .printRawStrVal
  | 0x05 => pure .printLn
  | 0x10 =>
    Reader.take 8 (eof "i64 literal" .instructions) >>= fun bs =>
      pure (.pushI64 (UInt64.ofNat (ofLe bs)).toInt64)
  | 0x12 =>
    Reader.take 8 (eof "f64 literal" .instructions) >>= fun bs =>
      pure (.pushF64 ⟨UInt64.ofNat (ofLe bs)⟩)
  | 0x11 => Reader.byte (eof "bool value" .instructions) >>= fun b => pure (.pushBool b)
  | 0x13 => u32ArmDetailed .pushStr
  | _ => .fail fun _ => .detailed (.unknownOpcode op) .instructions opOffset

def decodeOpDetailed : Reader DecodeError Op :=
  Reader.pos >>= fun opOffset =>
    Reader.byte (eof "opcode" .instructions) >>= fun op => armDetailed op opOffset

/-- The trailing tables are not read. -/
def decodeBodyDetailed : Reader DecodeError Program := do
  let strCount ← readU32Detailed .stringTable
  let strings ← readStringDetailed.many strCount.toNat
  let codeCount ← readU32Detailed .instructions
  let code ← decodeOpDetailed.many codeCount.toNat
  pure { strings, code, asyncDispatch := [], debugEntries := [] }

def decodeProgramDetailed (bytes : List UInt8) : Except DecodeError Program :=
  match validateBytecodeHeader bytes with
  | .error e => .error e
  | .ok _ =>
    match decodeBodyDetailed bytes magic.length with
    | .ok (p, _) => .ok p
    | .error e => .error e

/-! ## Header -/

def libMagicPrefix : List UInt8 := [65, 82, 84, 72, 76, 73, 66]

def libraryVersion : UInt8 := 1
def minSupportedLibVersion : UInt8 := 1
def maxSupportedLibVersion : UInt8 := 1

def makeLibraryMagic (version : UInt8) : List UInt8 := libMagicPrefix ++ [48 + version]

def libMagic : List UInt8 := makeLibraryMagic libraryVersion

def extractLibVersion (header : List UInt8) : Option UInt8 :=
  if header.length < 8 then none
  else if header.take 7 ≠ libMagicPrefix then none
  else
    let v := header.getD 7 0
    if isAsciiDigit v then some (v - 48) else none

def isLibVersionSupported (version : UInt8) : Bool :=
  minSupportedLibVersion ≤ version && version ≤ maxSupportedLibVersion

/-- An error of `validate_library_header`, with the data that its text shows. -/
inductive LibraryHeaderError where
  | tooShort (got : Nat)
  /-- The file is a program. -/
  | program
  | invalidMagic (found : List UInt8)
  | invalidVersion (found : Char)
  | tooNew (version : UInt8)
  | tooOld (version : UInt8)
  deriving DecidableEq

def validateLibraryHeader (bytes : List UInt8) : Except LibraryHeaderError UInt8 :=
  if bytes.length < 8 then .error (.tooShort bytes.length)
  else
    let header := bytes.take 8
    if header.take 7 ≠ libMagicPrefix then
      .error (if header.take 6 = magicPrefix then .program else .invalidMagic (header.take 7))
    else
      match extractLibVersion header with
      | none => .error (.invalidVersion (byteChar (header.getD 7 0)))
      | some version =>
        if isLibVersionSupported version then .ok version
        else .error (if maxSupportedLibVersion < version then .tooNew version else .tooOld version)

/-- An error of `decode_library_detailed`: one of its own, or that of the header or of the
program inside the file, in a text. -/
inductive LibraryError where
  | decode (e : DecodeError)
  | header (e : LibraryHeaderError)
  | program (e : DecodeError) (offset : Nat)
  deriving DecidableEq

/-! ## The library format -/

def libEof (expected : String) (off : Nat) : LibraryError := .decode (eof expected .header off)

def readLibU32 : Reader LibraryError UInt32 :=
  Reader.take 4 (libEof "u32 value") >>= fun bs => pure (UInt32.ofNat (ofLe bs))

def readLibText (n : Nat) (expected : String) : Reader LibraryError String := do
  let off ← Reader.pos
  let bs ← Reader.take n (libEof expected)
  match String.fromUTF8? ⟨bs.toArray⟩ with
  | some s => pure s
  | none => .fail fun _ => .decode (.detailed .invalidUtf8 .header off)

def readLibProgram (n : Nat) : Reader LibraryError Program := do
  let off ← Reader.pos
  let bs ← Reader.take n (libEof "program bytes")
  match decodeProgram bs with
  | .ok p => pure p
  | .error e => .fail fun _ => .program e off

def encodeExport (e : ExportEntry) : List UInt8 := encodeString e.name ++ u32Le e.offset ++ [e.arity]

def readExport : Reader LibraryError ExportEntry := do
  let len ← readLibU32
  let name ← readLibText len.toNat "export name"
  let offset ← readLibU32
  let arity ← Reader.byte (libEof "export arity")
  pure { name, offset, arity }

def encodeLibrary (lib : Library) : Option (List UInt8) := do
  let program ← encodeProgram lib.program
  pure (libMagic ++ encodeString lib.id ++ (lenLe program.length ++ program) ++
    (lenLe lib.exports.length ++ lib.exports.flatMap encodeExport))

def decodeLibraryBody : Reader LibraryError (Program × List ExportEntry) := do
  let idLen ← readLibU32
  let _ ← readLibText idLen.toNat "library ID"
  let programLen ← readLibU32
  let program ← readLibProgram programLen.toNat
  let exportCount ← readLibU32
  let exports ← readExport.many exportCount.toNat
  pure (program, exports)

def decodeLibraryFormatDetailed (bytes : List UInt8) :
    Except LibraryError (Program × List ExportEntry) :=
  match decodeLibraryBody bytes libMagic.length with
  | .ok (lib, _) => .ok lib
  | .error e => .error e

def decodeLibraryDetailed (bytes : List UInt8) :
    Except LibraryError (Program × List ExportEntry) :=
  if bytes.length < 8 then .error (.decode (.detailed (.tooShort 8 bytes.length) .header 0))
  else if bytes.take 7 = libMagicPrefix then
    match validateLibraryHeader bytes with
    | .error e => .error (.header e)
    | .ok _ => decodeLibraryFormatDetailed bytes
  else
    match decodeProgramDetailed bytes with
    | .error e => .error (.decode e)
    | .ok p => .ok (p, [])

/-- The counts and lengths of a library fit in a `u32`. -/
structure Library.Fits (lib : Library) : Prop where
  id : (asBytes lib.id).length < 2 ^ 32
  program : lib.program.Fits
  programLength : ∀ bytes, encodeProgram lib.program = some bytes → bytes.length < 2 ^ 32
  exportCount : lib.exports.length < 2 ^ 32
  exports : ∀ e ∈ lib.exports, (asBytes e.name).length < 2 ^ 32

theorem takeU32_reads {ε : Type} (err : Nat → ε) (n : UInt32) :
    Reads (Reader.take 4 err >>= fun bs => pure (UInt32.ofNat (ofLe bs))) (u32Le n) n := by
  have h := (reads_take err (length_toLe 4 n.toNat)).map fun bs => UInt32.ofNat (ofLe bs)
  rwa [ofLe_toLe 4 n.toNat (by simpa using n.toNat_lt), UInt32.ofNat_toNat] at h

theorem readLibU32_reads (n : UInt32) : Reads readLibU32 (u32Le n) n := takeU32_reads _ n

theorem readLibText_reads {s : String} {n : Nat} (h : (asBytes s).length = n)
    (expected : String) : Reads (readLibText n expected) (asBytes s) s := by
  refine reads_pos fun off => ?_
  rw [← append_nil (asBytes s)]
  refine Reads.bind (reads_take _ h) ?_
  simp only [fromUTF8_asBytes]
  exact Reads.pure s

variable {p : Program} {bytes : List UInt8} {lib : Library}

theorem readLibProgram_reads {n : Nat} (hf : p.Fits)
    (h : encodeProgram p = some bytes) (hn : bytes.length = n) :
    Reads (readLibProgram n) bytes p.dropEmptySources := by
  refine reads_pos fun off => ?_
  rw [← append_nil bytes]
  refine Reads.bind (reads_take _ hn) ?_
  rw [decodeProgram_encodeProgram hf h]
  exact Reads.pure _

theorem readExport_reads {e : ExportEntry} (h : (asBytes e.name).length < 2 ^ 32) :
    Reads readExport (encodeExport e) e := by
  have hname := readLibText_reads (toNat_ofNat_u32 h).symm "export name"
  have harity := (reads_byte (libEof "export arity") e.arity).map fun arity =>
    ExportEntry.mk e.name e.offset arity
  simp only [encodeExport, encodeString, lenLe, append_assoc]
  exact (readLibU32_reads _).bind (hname.bind ((readLibU32_reads e.offset).bind harity))

theorem decodeLibraryBody_reads {program : List UInt8} (hf : lib.Fits)
    (h : encodeProgram lib.program = some program) :
    Reads decodeLibraryBody (encodeString lib.id ++ ((lenLe program.length ++ program) ++
        (lenLe lib.exports.length ++ lib.exports.flatMap encodeExport)))
      (lib.program.dropEmptySources, lib.exports) := by
  have hid := readLibText_reads (toNat_ofNat_u32 hf.id).symm "library ID"
  have hprogram := readLibProgram_reads hf.program h (toNat_ofNat_u32 (hf.programLength _ h)).symm
  have hexports := Reads.many (g := id) lib.exports fun e he => readExport_reads (hf.exports e he)
  rw [List.map_id, ← toNat_ofNat_u32 hf.exportCount] at hexports
  have hlast := hexports.map fun exports => (lib.program.dropEmptySources, exports)
  exact (readLibU32_reads _).bind (hid.bind ((readLibU32_reads _).bind (hprogram.bind
    ((readLibU32_reads _).bind hlast))))

theorem decodeLibraryDetailed_magic (body : List UInt8) :
    decodeLibraryDetailed (libMagic ++ body) = decodeLibraryFormatDetailed (libMagic ++ body) := by
  have hlen : ¬ (libMagic ++ body).length < 8 := by
    rw [length_append]
    change ¬ 8 + _ < 8
    omega
  have hprefix : (libMagic ++ body).take 7 = libMagicPrefix := by
    rw [take_append_of_le_length (by decide)]
    decide
  have hheader : validateLibraryHeader (libMagic ++ body) = .ok libraryVersion := by
    have htake : (libMagic ++ body).take 8 = libMagic := take_left' rfl
    rw [validateLibraryHeader, if_neg hlen, htake]
    rfl
  rw [decodeLibraryDetailed, if_neg hlen, if_pos hprefix, hheader]

/-- **Library round trip.** A library whose program the encoder accepts and whose counts and
lengths fit in a `u32` comes back, with empty source file names turned into none. -/
theorem decodeLibraryDetailed_encodeLibrary (hf : lib.Fits) (h : encodeLibrary lib = some bytes) :
    decodeLibraryDetailed bytes = .ok (lib.program.dropEmptySources, lib.exports) := by
  simp only [encodeLibrary, bind_eq_bind, bind_eq_some_iff, Option.pure_def, some.injEq] at h
  obtain ⟨program, hprogram, rfl⟩ := h
  have hbody := decodeLibraryBody_reads hf hprogram libMagic []
  rw [append_nil] at hbody
  rw [append_assoc, append_assoc, decodeLibraryDetailed_magic, decodeLibraryFormatDetailed, hbody]

/-! ## Programs as libraries -/

/-- The instructions that the second bytecode decoder knows. -/
def Op.InDetailed : Op → Bool
  | .print _ | .printStrVal _ | .printRaw _ | .printRawStrVal _ | .printLn | .halt | .pushI64 _
  | .pushF64 _ | .pushBool _ | .pushStr _ => true
  | _ => false

theorem decodeOpDetailed_yields : Yields decodeOpDetailed fun op => op.InDetailed = true := by
  refine (Yields.trivial _).bind fun off _ => (Yields.trivial _).bind fun op _ => ?_
  unfold armDetailed
  split
  case h_11 => exact Yields.fail _
  all_goals first
    | exact Yields.pure rfl
    | exact (Yields.trivial _).bind fun _ _ => Yields.pure rfl

theorem decodeProgramDetailed_basic (h : decodeProgramDetailed bytes = .ok p) :
    (∀ op ∈ p.code, op.InDetailed = true) ∧ p.asyncDispatch = [] ∧ p.debugEntries = [] := by
  have hbody : Yields decodeBodyDetailed fun p =>
      (∀ op ∈ p.code, op.InDetailed = true) ∧ p.asyncDispatch = [] ∧ p.debugEntries = [] := by
    refine (Yields.trivial _).bind fun _ _ => (Yields.trivial _).bind fun _ _ => ?_
    refine (Yields.trivial _).bind fun n _ => (decodeOpDetailed_yields.many _).bind ?_
    exact fun code hcode => Yields.pure ⟨hcode, rfl, rfl⟩
  unfold decodeProgramDetailed at h
  split at h
  · cases h
  · split at h
    · cases h
      exact hbody _ _ _ _ ‹_›
    · cases h

variable {op : Op} {b : UInt8}

theorem decodeOpDetailed_of_arm {e : List UInt8}
    (h : ∀ off, Reads (armDetailed b off) e op) : Reads decodeOpDetailed (b :: e) op :=
  reads_pos fun off => (reads_byte _ b).bind (h off)

theorem decodeOpDetailed_u32 (f : UInt32 → Op)
    (h : ∀ off, armDetailed b off = u32ArmDetailed f) (ix : UInt32) :
    Reads decodeOpDetailed (b :: u32Le ix) (f ix) :=
  decodeOpDetailed_of_arm fun off => (h off).symm ▸ (takeU32_reads _ ix).map f

theorem pushI64_readsDetailed (n : Int64) :
    Reads decodeOpDetailed (0x10 :: i64Le n) (.pushI64 n) := by
  refine decodeOpDetailed_of_arm fun off => ?_
  have h := (reads_take (eof "i64 literal" .instructions) (length_u64Le n.toUInt64)).map
    fun bs => Op.pushI64 (UInt64.ofNat (ofLe bs)).toInt64
  rwa [ofLe_u64Le] at h

theorem pushF64_readsDetailed (x : F64) :
    Reads decodeOpDetailed (0x12 :: u64Le x.bits) (.pushF64 x) := by
  refine decodeOpDetailed_of_arm fun off => ?_
  have h := (reads_take (eof "f64 literal" .instructions) (length_u64Le x.bits)).map
    fun bs => Op.pushF64 ⟨UInt64.ofNat (ofLe bs)⟩
  rwa [ofLe_u64Le] at h

theorem decodeOpDetailed_reads {enc : List UInt8} (hop : op.InDetailed = true)
    (h : encodeOp op = some enc) : Reads decodeOpDetailed enc op := by
  cases op with
  | print ix | printStrVal ix | printRaw ix | printRawStrVal ix | pushStr ix =>
    cases h; exact decodeOpDetailed_u32 _ (fun _ => rfl) ix
  | printLn | halt => cases h; exact decodeOpDetailed_of_arm fun _ => Reads.pure _
  | pushI64 n => cases h; exact pushI64_readsDetailed n
  | pushF64 x => cases h; exact pushF64_readsDetailed x
  | pushBool b => cases h; exact decodeOpDetailed_of_arm fun _ => (reads_byte _ b).map _
  | _ => cases hop

theorem readStringDetailed_reads {s : String} (h : (asBytes s).length < 2 ^ 32) :
    Reads readStringDetailed (encodeString s) s :=
  (takeU32_reads _ _).bind (readText_reads (toNat_ofNat_u32 h).symm _ _)

theorem encodeOp_of_inDetailed (h : op.InDetailed = true) : ∃ enc, encodeOp op = some enc := by
  cases op <;> first | exact ⟨_, rfl⟩ | cases h

theorem decodeBodyDetailed_reads (hf : p.Fits) {code : List UInt8}
    (h : encodeCode p.code = some code) (hcode : ∀ op ∈ p.code, op.InDetailed = true) :
    Reads decodeBodyDetailed ((lenLe p.strings.length ++ p.strings.flatMap encodeString) ++
      (lenLe p.code.length ++ code)) { p with asyncDispatch := [], debugEntries := [] } := by
  obtain ⟨rfl, _⟩ := encodeCode_some h
  have hops : ∀ op ∈ p.code, Reads decodeOpDetailed ((encodeOp op).getD []) op := by
    intro op hop
    obtain ⟨enc, henc⟩ := encodeOp_of_inDetailed (hcode op hop)
    rw [henc]
    exact decodeOpDetailed_reads (hcode op hop) henc
  have hs := Reads.many (g := id) p.strings fun s hs => readStringDetailed_reads (hf.strings s hs)
  have hc := Reads.many (g := id) p.code hops
  rw [List.map_id, ← toNat_ofNat_u32 hf.stringCount] at hs
  rw [List.map_id, ← toNat_ofNat_u32 hf.codeCount] at hc
  have hlast := hc.map fun code => Program.mk p.strings code [] []
  exact (takeU32_reads _ _).bind (hs.bind ((takeU32_reads _ _).bind hlast))

theorem decodeProgramDetailed_encodeProgram (hf : p.Fits)
    (h : encodeProgram p = some bytes) (hcode : ∀ op ∈ p.code, op.InDetailed = true) :
    decodeProgramDetailed bytes = .ok { p with asyncDispatch := [], debugEntries := [] } := by
  simp only [encodeProgram, bind_eq_bind, bind_eq_some_iff, Option.pure_def, some.injEq] at h
  obtain ⟨code, hcode', rfl⟩ := h
  have hbody := decodeBodyDetailed_reads hf hcode' hcode magic
  simp only [append_assoc] at hbody ⊢
  rw [decodeProgramDetailed, validateBytecodeHeader_magic]
  simp only [hbody]

theorem decodeLibraryDetailed_program (body : List UInt8) :
    decodeLibraryDetailed (magic ++ body) = .ok (p, []) ↔
      decodeProgramDetailed (magic ++ body) = .ok p := by
  have hlen : ¬ (magic ++ body).length < 8 := by
    rw [length_append]
    change ¬ 8 + _ < 8
    omega
  have hprefix : (magic ++ body).take 7 ≠ libMagicPrefix := by
    rw [take_append_of_le_length (by decide)]
    decide
  rw [decodeLibraryDetailed, if_neg hlen, if_neg hprefix]
  cases decodeProgramDetailed (magic ++ body) with
  | error e => exact ⟨nofun, nofun⟩
  | ok p' =>
    simp only [Except.ok.injEq, Prod.mk.injEq, and_true]

/-- The file of a library reads back, and its bare program does, as a library without
exports. -/
structure LibraryRoundTrips (lib : Library) : Prop where
  library : ∃ bytes, encodeLibrary lib = some bytes ∧
    decodeLibraryDetailed bytes = .ok (lib.program, lib.exports)
  program : ∃ bytes, encodeProgram lib.program = some bytes ∧
    decodeLibraryDetailed bytes = .ok (lib.program, [])

theorem encodeCode_of_inDetailed {ops : List Op} (h : ∀ op ∈ ops, op.InDetailed = true) :
    ∃ code, encodeCode ops = some code := by
  induction ops with
  | nil => exact ⟨[], rfl⟩
  | cons op ops ih =>
    obtain ⟨bs, hbs⟩ := encodeOp_of_inDetailed (h op mem_cons_self)
    obtain ⟨rest, hrest⟩ := ih fun op hop => h op (mem_cons_of_mem _ hop)
    exact ⟨bs ++ rest, by simp only [encodeCode, hbs, hrest]; rfl⟩

/-- **Exactly the libraries that round-trip**, as a library and as a bare program: those whose
instructions the second bytecode decoder knows, and whose trailing tables are empty. -/
theorem libraryRoundTrips_iff {lib : Library} (hf : lib.Fits) :
    LibraryRoundTrips lib ↔ (∀ op ∈ lib.program.code, op.InDetailed = true) ∧
      lib.program.asyncDispatch = [] ∧ lib.program.debugEntries = [] := by
  constructor
  · intro h
    obtain ⟨bytes, hbytes, hdecode⟩ := h.program
    obtain ⟨body, rfl, _⟩ := encodeProgram_reads hf.program hbytes
    exact decodeProgramDetailed_basic ((decodeLibraryDetailed_program body).1 hdecode)
  · rintro ⟨hcode, hasync, hdebug⟩
    obtain ⟨code, hencode⟩ := encodeCode_of_inDetailed hcode
    have hsome : ∃ bytes, encodeProgram lib.program = some bytes := by
      simp only [encodeProgram, hencode]
      exact ⟨_, rfl⟩
    obtain ⟨bytes, hbytes⟩ := hsome
    have hsame : { lib.program with asyncDispatch := [], debugEntries := [] } = lib.program := by
      rw [← hasync, ← hdebug]
    have hdrop : lib.program.dropEmptySources = lib.program := by
      unfold Program.dropEmptySources
      rw [hdebug, List.map_nil, ← hdebug]
    refine ⟨?_, bytes, hbytes, ?_⟩
    · have hlib : ∃ libBytes, encodeLibrary lib = some libBytes := by
        simp only [encodeLibrary, hbytes]
        exact ⟨_, rfl⟩
      obtain ⟨libBytes, hlib⟩ := hlib
      have hdecode := decodeLibraryDetailed_encodeLibrary hf hlib
      rw [hdrop] at hdecode
      exact ⟨libBytes, hlib, hdecode⟩
    · have hdecode := decodeProgramDetailed_encodeProgram hf.program hbytes hcode
      rw [hsame] at hdecode
      obtain ⟨body, rfl, _⟩ := encodeProgram_reads hf.program hbytes
      exact (decodeLibraryDetailed_program body).2 hdecode

/-- A library with one export and the given code. -/
def oneExport (code : List Op) : Library where
  program := { strings := ["hi"], code, asyncDispatch := [], debugEntries := [] }
  exports := [{ name := "m.f", offset := 0, arity := 0 }]
  id := "m"

theorem oneExport_ret : ¬ LibraryRoundTrips (oneExport [.print 0, .ret]) := by
  intro h
  obtain ⟨bytes, hbytes, hdecode⟩ := h.program
  cases hbytes
  exact absurd hdecode (by decide +kernel)

theorem oneExport_halt : LibraryRoundTrips (oneExport [.print 0, .halt]) := by
  have hf : (oneExport [.print 0, .halt]).Fits := by
    refine ⟨by decide +kernel, ⟨by decide, ?_, by decide, by decide, by decide, nofun⟩, ?_,
      by decide, ?_⟩
    · decide +kernel
    · intro bytes hbytes
      cases hbytes
      decide +kernel
    · decide +kernel
  exact (libraryRoundTrips_iff hf).2 ⟨by decide, rfl, rfl⟩

end Arth
