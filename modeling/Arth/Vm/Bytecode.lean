import Arth.Lib.ByteReader
import Arth.Vm.Program

/-!
# The bytecode format

`encodeProgram` and `decodeProgram`: header, string table, instructions, async
dispatch table and debug entries. The encoder and the decoder are two separate
tables over one opcode byte, with four prefix bytes and the escape tags of the
host-call family.
-/

namespace Arth

open ByteReader

inductive DecodePhase where
  | header | stringTable | instructions | asyncDispatch | debugInfo
  deriving DecidableEq

inductive DecodeErrorKind where
  | tooShort (expected got : Nat)
  | invalidMagic (found : List UInt8)
  | wrongFileType (detected : String)
  | unsupportedVersion (version min max : UInt8) (tooNew : Bool)
  | unknownOpcode (opcode : UInt8)
  | unknownSubOpcode (category : String) (opcode subOpcode : UInt8)
  | unexpectedEof (expected : String)
  | invalidUtf8
  | other (message : String)
  deriving DecidableEq

/-- An error of `decode_program`: a plain text, or a `DecodeError` with its place. -/
inductive DecodeError where
  | text (message : String)
  | detailed (kind : DecodeErrorKind) (phase : DecodePhase) (offset : Nat)
  deriving DecidableEq

def eof (expected : String) (phase : DecodePhase) (off : Nat) : DecodeError :=
  .detailed (.unexpectedEof expected) phase off

/-! ## Header -/

def magicPrefix : List UInt8 := [65, 82, 84, 72, 66, 67]

def bytecodeVersion : UInt8 := 1
def minSupportedVersion : UInt8 := 1
def maxSupportedVersion : UInt8 := 1

def makeMagicHeader (version : UInt8) : List UInt8 :=
  magicPrefix ++ [48 + version / 10, 48 + version % 10]

def magic : List UInt8 := makeMagicHeader bytecodeVersion

def isAsciiDigit (b : UInt8) : Bool := 48 ≤ b && b ≤ 57

def extractVersion (header : List UInt8) : Option UInt8 :=
  if header.length < 8 then none
  else if header.take 6 ≠ magicPrefix then none
  else
    let v1 := header.getD 6 0
    let v2 := header.getD 7 0
    if isAsciiDigit v1 && isAsciiDigit v2 then some ((v1 - 48) * 10 + (v2 - 48)) else none

def isVersionSupported (version : UInt8) : Bool :=
  minSupportedVersion ≤ version && version ≤ maxSupportedVersion

/-- The kind of file the first eight bytes look like, when they are not Arth bytecode. -/
def misidentified (header : List UInt8) : DecodeErrorKind :=
  if header.take 7 = [65, 82, 84, 72, 76, 73, 66] then
    .wrongFileType "Arth library (.alib) - use linker to load libraries"
  else if header.take 4 = [0x7F, 69, 76, 70] then .wrongFileType "ELF binary"
  else if header.take 2 = [77, 90] then .wrongFileType "Windows executable (PE)"
  else if header.take 2 = [80, 75] then .wrongFileType "ZIP archive"
  else .invalidMagic header

/-- `byte as char`. -/
def byteChar (b : UInt8) : Char := Char.ofNat b.toNat

def validateBytecodeHeader (bytes : List UInt8) : Except DecodeError UInt8 :=
  if bytes.length < 8 then .error (.detailed (.tooShort 8 bytes.length) .header 0)
  else
    let header := bytes.take 8
    if header.take 6 ≠ magicPrefix then .error (.detailed (misidentified header) .header 0)
    else
      match extractVersion header with
      | none => .error (.detailed (.other ("invalid version format: expected digits, got '" ++
          String.ofList [byteChar (header.getD 6 0), byteChar (header.getD 7 0)] ++ "'")) .header 6)
      | some version =>
        if isVersionSupported version then .ok version
        else .error (.detailed (.unsupportedVersion version minSupportedVersion
          maxSupportedVersion (maxSupportedVersion < version)) .header 6)

/-! ## Numbers and texts -/

def u32Le (n : UInt32) : List UInt8 := toLe 4 n.toNat
def u64Le (n : UInt64) : List UInt8 := toLe 8 n.toNat
def i64Le (n : Int64) : List UInt8 := u64Le n.toUInt64

/-- A length as the encoder writes it, cast to `u32`. -/
def lenLe (n : Nat) : List UInt8 := u32Le (UInt32.ofNat n)

def asBytes (s : String) : List UInt8 := s.toByteArray.data.toList

def readU32 : Reader DecodeError UInt32 :=
  Reader.take 4 (fun _ => .text "unexpected EOF while reading u32") >>= fun bs =>
    pure (UInt32.ofNat (ofLe bs))

/-- A text of `n` bytes; the error for a short input names what was `expected`. -/
def readText (n : Nat) (expected : String) (phase : DecodePhase) : Reader DecodeError String := do
  let off ← Reader.pos
  let bs ← Reader.take n (eof expected phase)
  match String.fromUTF8? ⟨bs.toArray⟩ with
  | some s => pure s
  | none => .fail fun _ => .detailed .invalidUtf8 phase off

/-! ## Instructions -/

def hostCallExtDb : UInt8 := 0xFD
def hostCallExtMail : UInt8 := 0xFE
def hostCallExtCrypto : UInt8 := 0xFF

def u32Arm (f : UInt32 → Op) : Reader DecodeError Op := readU32 >>= fun ix => pure (f ix)

def i64Arm (f : Int64 → Op) : Reader DecodeError Op :=
  Reader.take 8 (fun _ => .text "unexpected EOF while reading i64") >>= fun bs =>
    pure (f (UInt64.ofNat (ofLe bs)).toInt64)

def f64Arm (f : F64 → Op) : Reader DecodeError Op :=
  Reader.take 8 (fun _ => .text "unexpected EOF while reading f64") >>= fun bs =>
    pure (f ⟨UInt64.ofNat (ofLe bs)⟩)

def byteArm (message : String) (f : UInt8 → Op) : Reader DecodeError Op :=
  Reader.byte (fun _ => .text message) >>= fun b => pure (f b)

/-- `0x{:02x}` of a byte. -/
def hexByte (b : UInt8) : String :=
  "0x" ++ String.ofList [Nat.digitChar (b.toNat / 16), Nat.digitChar (b.toNat % 16)]

/-- One more byte, looked up among the operations of a host family. -/
def hostArm {α : Type} (name : String) (fromU8 : UInt8 → Option α) (f : α → Op) :
    Reader DecodeError Op :=
  Reader.byte (fun _ => .text ("unexpected EOF while reading " ++ name)) >>= fun b =>
    match fromU8 b with
    | some o => pure (f o)
    | none => .fail fun _ => .text ("unknown " ++ name ++ ": " ++ hexByte b)

/-- One more byte, looked up among the sub-opcodes of a prefix. -/
def subArm (category : String) (opcode : UInt8) (table : UInt8 → Option Op) :
    Reader DecodeError Op :=
  Reader.byte (eof (category ++ " sub-opcode") .instructions) >>= fun sub =>
    match table sub with
    | some o => pure o
    | none => .fail fun off =>
        .detailed (.unknownSubOpcode category opcode sub) .instructions (off - 1)

/-- The second byte of the `0xA1` family: three escape tags, else a direct `HostIoOp`. -/
def hostIoArm (b : UInt8) : Reader DecodeError Op :=
  if b = hostCallExtDb then hostArm "HostDbOp" HostDbOp.fromU8 .hostCallDb
  else if b = hostCallExtMail then hostArm "HostMailOp" HostMailOp.fromU8 .hostCallMail
  else if b = hostCallExtCrypto then hostArm "HostCryptoOp" HostCryptoOp.fromU8 .hostCallCrypto
  else
    match HostIoOp.fromU8 b with
    | some o => pure (.hostCallIo o)
    | none => .fail fun _ => .text ("unknown HostIoOp: " ++ hexByte b)

def decodeHostIo : Reader DecodeError Op :=
  Reader.byte (fun _ => .text "unexpected EOF while reading HostIoOp") >>= hostIoArm

def decodeExternCall : Reader DecodeError Op :=
  readU32 >>= fun sym =>
    Reader.byte (fun _ => .text "unexpected EOF while reading extern argc") >>= fun argc =>
      readU32 >>= fun floatMask =>
        byteArm "unexpected EOF while reading extern ret_kind" (.externCall sym argc floatMask)


/-- The bytes `encode_program` writes for one instruction; `none` is its
`unimplemented!` arm. -/
def encodeOp : Op → Option (List UInt8)
  | .print ix => some ([0x01] ++ u32Le ix) | .printStrVal ix => some ([0x02] ++ u32Le ix)
  | .printRaw ix => some ([0x03] ++ u32Le ix) | .printRawStrVal ix => some ([0x04] ++ u32Le ix)
  | .printLn => some [0x05] | .halt => some [0xFF] | .pushI64 n => some ([0x10] ++ i64Le n)
  | .pushF64 x => some ([0x12] ++ u64Le x.bits) | .pushBool b => some [0x11, b]
  | .pushStr ix => some ([0x13] ++ u32Le ix) | .addI64 => some [0x20] | .subI64 => some [0x22]
  | .mulI64 => some [0x23] | .divI64 => some [0x24] | .modI64 => some [0x26]
  | .ltI64 => some [0x21] | .eqI64 => some [0x25] | .eqStr => some [0x2C]
  | .concatStr => some [0x2D] | .shlI64 => some [0x27] | .shrI64 => some [0x28]
  | .andI64 => some [0x29] | .orI64 => some [0x2A] | .xorI64 => some [0x2B]
  | .jump tgt => some ([0x30] ++ u32Le tgt) | .jumpIfFalse tgt => some ([0x31] ++ u32Le tgt)
  | .call tgt => some ([0x70] ++ u32Le tgt) | .callSymbol sym => some ([0x00] ++ u32Le sym)
  | .externCall sym argc floatMask retKind => some ([0xE0] ++ u32Le sym ++ [argc] ++ u32Le floatMask ++ [retKind])
  | .ret => some [0x71] | .pop => some [0x40] | .printTop => some [0x50]
  | .localGet ix => some ([0x60] ++ u32Le ix) | .localSet ix => some ([0x61] ++ u32Le ix)
  | .toF64 => some [0x62] | .toI64 => some [0x63] | .toI64OrEnumTag => some [0x66]
  | .toBool => some [0x64] | .toChar => some [0x65] | .toI8 => some [0x67]
  | .toI16 => some [0x68] | .toI32 => some [0x69] | .toU8 => some [0x6A] | .toU16 => some [0x6B]
  | .toU32 => some [0x6C] | .toU64 => some [0x6D] | .toF32 => some [0x6E]
  | .sqrtF64 => some [0x90] | .powF64 => some [0x91] | .sinF64 => some [0x92]
  | .cosF64 => some [0x93] | .tanF64 => some [0x94] | .floorF64 => some [0x95]
  | .ceilF64 => some [0x96] | .roundF64 => some [0x97] | .listNew => some [0xB0]
  | .listPush => some [0xB1] | .listGet => some [0xB2] | .listSet => some [0xB8]
  | .listLen => some [0xB3] | .listRemove => some [0xBB] | .listSort => some [0xC4]
  | .mapNew => some [0xB4] | .mapPut => some [0xB5] | .mapGet => some [0xB6]
  | .mapLen => some [0xB7] | .mapContainsKey => some [0xC6] | .mapRemove => some [0xC8]
  | .mapKeys => some [0xCC] | .mapMerge => some [0xCD] | .strLen => some [0x4C, 0x00]
  | .strSubstring => some [0x4C, 0x01] | .strIndexOf => some [0x4C, 0x02]
  | .strLastIndexOf => some [0x4C, 0x03] | .strStartsWith => some [0x4C, 0x04]
  | .strEndsWith => some [0x4C, 0x05] | .strSplit => some [0x4C, 0x06]
  | .strTrim => some [0x4C, 0x07] | .strToLower => some [0x4C, 0x08]
  | .strToUpper => some [0x4C, 0x09] | .strReplace => some [0x4C, 0x0A]
  | .strCharAt => some [0x4C, 0x0B] | .strContains => some [0x4C, 0x0C]
  | .strRepeat => some [0x4C, 0x0D] | .strParseInt => some [0x4C, 0x0E]
  | .strParseFloat => some [0x4C, 0x0F] | .strFromInt => some [0x4C, 0x10]
  | .strFromFloat => some [0x4C, 0x11] | .optSome => some [0xA4] | .optNone => some [0xA5]
  | .optIsSome => some [0xA6] | .optUnwrap => some [0xA7] | .optOrElse => some [0xA8]
  | .structNew => some [0x72] | .structSet => some [0x73] | .structGet => some [0x74]
  | .structGetNamed => some [0x75] | .structSetNamed => some [0x7F, 0x20]
  | .structCopy => some [0x76] | .structTypeName => some [0x77]
  | .structFieldCount => some [0x78] | .enumNew => some [0x79] | .enumSetPayload => some [0x7A]
  | .enumGetPayload => some [0x7B] | .enumGetTag => some [0x7C] | .enumGetVariant => some [0x7D]
  | .enumTypeName => some [0x7E] | .jsonStringify => some [0xE1] | .jsonParse => some [0xE2]
  | .structToJson => some [0xE3] | .jsonToStruct => some [0xE4]
  | .jsonGetField => some [0x7F, 0x30] | .jsonGetIndex => some [0x7F, 0x31]
  | .jsonGetString => some [0x7F, 0x32] | .jsonGetNumber => some [0x7F, 0x33]
  | .jsonGetBool => some [0x7F, 0x34] | .jsonIsNull => some [0x7F, 0x35]
  | .jsonIsObject => some [0x7F, 0x36] | .jsonIsArray => some [0x7F, 0x37]
  | .jsonArrayLen => some [0x7F, 0x38] | .jsonKeys => some [0x7F, 0x39]
  | .htmlParse => some [0xE5] | .htmlParseFragment => some [0xE6] | .htmlStringify => some [0xE7]
  | .htmlStringifyPretty => some [0xE8] | .htmlFree => some [0xE9] | .htmlNodeType => some [0xEA]
  | .htmlTagName => some [0xEB] | .htmlTextContent => some [0xEC] | .htmlInnerHtml => some [0xED]
  | .htmlOuterHtml => some [0xEE] | .htmlGetAttr => some [0xEF] | .htmlHasAttr => some [0xF0]
  | .htmlAttrNames => some [0xF1] | .htmlParent => some [0xF2] | .htmlChildren => some [0xF3]
  | .htmlElementChildren => some [0xF4] | .htmlFirstChild => some [0xF5]
  | .htmlLastChild => some [0xF6] | .htmlNextSibling => some [0xF7]
  | .htmlPrevSibling => some [0xF8] | .htmlQuerySelector => some [0xF9]
  | .htmlQuerySelectorAll => some [0xFA] | .htmlGetById => some [0xFB]
  | .htmlGetByTag => some [0xFC] | .htmlGetByClass => some [0xFD] | .htmlHasClass => some [0xFE]
  | .templateCompile => some [0x80] | .templateCompileFile => some [0x81]
  | .templateRender => some [0x82] | .templateRegisterPartial => some [0x83]
  | .templateGetPartial => some [0x84] | .templateUnregisterPartial => some [0x85]
  | .templateFree => some [0x86] | .templateEscapeHtml => some [0x87]
  | .templateUnescapeHtml => some [0x88] | .sharedNew => some [0xC0]
  | .sharedStore => some [0xC1] | .sharedLoad => some [0xC2]
  | .sharedGetByName ix => some ([0xC3] ++ u32Le ix)
  | .closureNew funcId numCaptures => some ([0xCE] ++ u32Le funcId ++ u32Le numCaptures)
  | .closureCapture => some [0xCF] | .closureCall numArgs => some ([0xD0] ++ u32Le numArgs)
  | .rcAlloc => some [0xD1] | .rcInc => some [0xD2] | .rcDec => some [0xD3]
  | .rcDecWithDeinit funcIdx => some ([0xD4] ++ u32Le funcIdx) | .rcLoad => some [0xD5]
  | .rcStore => some [0xD6] | .rcGetCount => some [0xD7]
  | .regionEnter regionId => some ([0xD8] ++ u32Le regionId)
  | .regionExit regionId => some ([0xD9] ++ u32Le regionId)
  | .panic msgIdx => some ([0xDA] ++ u32Le msgIdx)
  | .setUnwindHandler handlerIp => some ([0xDB] ++ u32Le handlerIp)
  | .clearUnwindHandler => some [0xDC] | .getPanicMessage => some [0xDD] | .throw => some [0xDE]
  | .getException => some [0xDF] | .hostCallIo op => some [0xA1, op.toU8]
  | .hostCallNet op => some [0xA2, op.toU8] | .hostCallTime op => some [0xA3, op.toU8]
  | .hostCallDb op => some [0xA1, hostCallExtDb, op.toU8]
  | .hostCallMail op => some [0xA1, hostCallExtMail, op.toU8]
  | .hostCallCrypto op => some [0xA1, hostCallExtCrypto, op.toU8]
  | .hostCallGeneric => some [0x4D] | .taskSpawn => some [0xA9] | .taskPushArg => some [0xAA]
  | .taskAwait => some [0xAB] | .taskRunBody funcOffset => some ([0xAC] ++ u32Le funcOffset)
  | .executorInit => some [0xAD] | .executorThreadCount => some [0xAE]
  | .executorActiveWorkers => some [0xAF] | .executorSpawn => some [0x89]
  | .executorJoin => some [0x8A] | .executorSpawnWithArg => some [0x8B]
  | .executorActiveExecutorCount => some [0x8C] | .executorWorkerTaskCount => some [0x8D]
  | .executorResetStats => some [0x8E] | .executorSpawnAwait => some [0x8F]
  | .mpmcChanCreate => some [0x98] | .mpmcChanSend => some [0x99]
  | .mpmcChanSendBlocking => some [0x9A] | .mpmcChanRecv => some [0x9B]
  | .mpmcChanRecvBlocking => some [0x9C] | .mpmcChanClose => some [0x9D]
  | .mpmcChanLen => some [0x9E] | .mpmcChanIsEmpty => some [0x9F]
  | .mpmcChanIsFull => some [0xA0] | .mpmcChanIsClosed => some [0x06]
  | .mpmcChanCapacity => some [0x07] | .mpmcChanSendWithTask => some [0xB9]
  | .mpmcChanRecvWithTask => some [0xBA] | .mpmcChanRecvAndWake => some [0xBC]
  | .mpmcChanPopWaitingSender => some [0xBD] | .mpmcChanGetWaitingSenderValue => some [0xBE]
  | .mpmcChanPopWaitingReceiver => some [0xBF] | .mpmcChanWaitingSenderCount => some [0xC5]
  | .mpmcChanWaitingReceiverCount => some [0xC7] | .mpmcChanGetWokenSender => some [0xC9]
  | .mpmcChanSendAndWake => some [0xCA] | .mpmcChanGetWokenReceiver => some [0xCB]
  | .mpmcChanSelectClear => some [0x14] | .mpmcChanSelectAdd => some [0x15]
  | .mpmcChanSelectCount => some [0x16] | .mpmcChanTrySelectRecv => some [0x17]
  | .mpmcChanSelectRecvBlocking => some [0x18] | .mpmcChanSelectRecvWithTask => some [0x19]
  | .mpmcChanSelectGetReadyIndex => some [0x1A] | .mpmcChanSelectGetValue => some [0x1B]
  | .mpmcChanSelectDeregister => some [0x1C] | .mpmcChanSelectGetHandle => some [0x1D]
  | .actorCreate => some [0x08] | .actorSpawn => some [0x09] | .actorSend => some [0x0A]
  | .actorSendBlocking => some [0x0B] | .actorRecv => some [0x0C]
  | .actorRecvBlocking => some [0x0D] | .actorClose => some [0x0E] | .actorStop => some [0x0F]
  | .actorGetTask => some [0x1E] | .actorGetMailbox => some [0x1F]
  | .actorIsRunning => some [0x2E] | .actorGetState => some [0x2F]
  | .actorMessageCount => some [0x3E] | .actorMailboxEmpty => some [0x3F]
  | .actorMailboxLen => some [0x4E] | .actorSetTask => some [0x4F]
  | .actorMarkStopped => some [0x5E] | .actorMarkFailed => some [0x5F]
  | .actorIsFailed => some [0x51] | .atomicCreate => some [0x52] | .atomicLoad => some [0x53]
  | .atomicStore => some [0x54] | .atomicCas => some [0x55] | .atomicFetchAdd => some [0x56]
  | .atomicFetchSub => some [0x57] | .atomicSwap => some [0x58] | .atomicGet => some [0x59]
  | .atomicSet => some [0x5A] | .atomicInc => some [0x5B] | .atomicDec => some [0x5C]
  | .eventLoopCreate => some [0x32] | .eventLoopRegisterTimer => some [0x33]
  | .eventLoopRegisterFd => some [0x34] | .eventLoopDeregister => some [0x35]
  | .eventLoopPoll => some [0x36] | .eventLoopGetEvent => some [0x37]
  | .eventLoopGetEventType => some [0x38] | .eventLoopClose => some [0x39]
  | .eventLoopPipeCreate => some [0x3A] | .eventLoopPipeGetWriteFd => some [0x3B]
  | .eventLoopPipeWrite => some [0x3C] | .eventLoopPipeRead => some [0x3D]
  | .eventLoopPipeClose => some [0x41] | .timerSleep => some [0x42]
  | .timerSleepAsync => some [0x43] | .timerCheckExpired => some [0x44]
  | .timerGetWaitingTask => some [0x45] | .timerCancel => some [0x46]
  | .timerPollExpired => some [0x47] | .timerNow => some [0x48] | .timerElapsed => some [0x49]
  | .timerRemove => some [0x4A] | .timerRemaining => some [0x4B]
  | .tcpListenerBind => some [0x6F, 0x00] | .tcpListenerAccept => some [0x6F, 0x01]
  | .tcpListenerAcceptAsync => some [0x6F, 0x02] | .tcpListenerClose => some [0x6F, 0x03]
  | .tcpListenerLocalPort => some [0x6F, 0x04] | .tcpStreamConnect => some [0x6F, 0x05]
  | .tcpStreamConnectAsync => some [0x6F, 0x06] | .tcpStreamRead => some [0x6F, 0x07]
  | .tcpStreamReadAsync => some [0x6F, 0x08] | .tcpStreamWrite => some [0x6F, 0x09]
  | .tcpStreamWriteAsync => some [0x6F, 0x0A] | .tcpStreamClose => some [0x6F, 0x0B]
  | .tcpStreamGetLastRead => some [0x6F, 0x0C] | .tcpStreamSetTimeout => some [0x6F, 0x0D]
  | .tcpCheckReady => some [0x6F, 0x0E] | .tcpGetResult => some [0x6F, 0x0F]
  | .tcpPollReady => some [0x6F, 0x10] | .tcpRemoveRequest => some [0x6F, 0x11]
  | .httpGet => some [0x7F, 0x00] | .httpPost => some [0x7F, 0x01]
  | .httpGetAsync => some [0x7F, 0x02] | .httpPostAsync => some [0x7F, 0x03]
  | .httpResponseStatus => some [0x7F, 0x04] | .httpResponseHeader => some [0x7F, 0x05]
  | .httpResponseBody => some [0x7F, 0x06] | .httpResponseClose => some [0x7F, 0x07]
  | .httpCheckReady => some [0x7F, 0x08] | .httpGetResult => some [0x7F, 0x09]
  | .httpPollReady => some [0x7F, 0x0A] | .httpRemoveRequest => some [0x7F, 0x0B]
  | .httpGetBodyLength => some [0x7F, 0x0C] | .httpGetHeaderCount => some [0x7F, 0x0D]
  | .httpServerCreate => some [0x5D, 0x00] | .httpServerClose => some [0x5D, 0x01]
  | .httpServerGetPort => some [0x5D, 0x02] | .httpServerAccept => some [0x5D, 0x03]
  | .httpServerAcceptAsync => some [0x5D, 0x04] | .httpRequestMethod => some [0x5D, 0x05]
  | .httpRequestPath => some [0x5D, 0x06] | .httpRequestHeader => some [0x5D, 0x07]
  | .httpRequestBody => some [0x5D, 0x08] | .httpRequestHeaderCount => some [0x5D, 0x09]
  | .httpRequestBodyLength => some [0x5D, 0x0A] | .httpWriterStatus => some [0x5D, 0x0B]
  | .httpWriterHeader => some [0x5D, 0x0C] | .httpWriterBody => some [0x5D, 0x0D]
  | .httpWriterSend => some [0x5D, 0x0E] | .httpWriterSendAsync => some [0x5D, 0x0F]
  | .httpServerCheckReady => some [0x5D, 0x10] | .httpServerGetResult => some [0x5D, 0x11]
  | .httpServerPollReady => some [0x5D, 0x12] | .httpServerRemoveRequest => some [0x5D, 0x13]
  | _ => none

/-- Sub-opcodes of the TCP prefix `0x6F`. -/
def decodeTcp (sub : UInt8) : Option Op :=
  match sub.toNat with
  | 0x00 => some .tcpListenerBind | 0x01 => some .tcpListenerAccept
  | 0x02 => some .tcpListenerAcceptAsync | 0x03 => some .tcpListenerClose
  | 0x04 => some .tcpListenerLocalPort | 0x05 => some .tcpStreamConnect
  | 0x06 => some .tcpStreamConnectAsync | 0x07 => some .tcpStreamRead
  | 0x08 => some .tcpStreamReadAsync | 0x09 => some .tcpStreamWrite
  | 0x0A => some .tcpStreamWriteAsync | 0x0B => some .tcpStreamClose
  | 0x0C => some .tcpStreamGetLastRead | 0x0D => some .tcpStreamSetTimeout
  | 0x0E => some .tcpCheckReady | 0x0F => some .tcpGetResult | 0x10 => some .tcpPollReady
  | 0x11 => some .tcpRemoveRequest | _ => none

/-- Sub-opcodes of the HTTP client prefix `0x7F`. -/
def decodeHttpClient (sub : UInt8) : Option Op :=
  match sub.toNat with
  | 0x00 => some .httpGet | 0x01 => some .httpPost | 0x02 => some .httpGetAsync
  | 0x03 => some .httpPostAsync | 0x04 => some .httpResponseStatus
  | 0x05 => some .httpResponseHeader | 0x06 => some .httpResponseBody
  | 0x07 => some .httpResponseClose | 0x08 => some .httpCheckReady | 0x09 => some .httpGetResult
  | 0x0A => some .httpPollReady | 0x0B => some .httpRemoveRequest
  | 0x0C => some .httpGetBodyLength | 0x0D => some .httpGetHeaderCount
  | 0x20 => some .structSetNamed | 0x30 => some .jsonGetField | 0x31 => some .jsonGetIndex
  | 0x32 => some .jsonGetString | 0x33 => some .jsonGetNumber | 0x34 => some .jsonGetBool
  | 0x35 => some .jsonIsNull | 0x36 => some .jsonIsObject | 0x37 => some .jsonIsArray
  | 0x38 => some .jsonArrayLen | 0x39 => some .jsonKeys | _ => none

/-- Sub-opcodes of the HTTP server prefix `0x5D`. -/
def decodeHttpServer (sub : UInt8) : Option Op :=
  match sub.toNat with
  | 0x00 => some .httpServerCreate | 0x01 => some .httpServerClose
  | 0x02 => some .httpServerGetPort | 0x03 => some .httpServerAccept
  | 0x04 => some .httpServerAcceptAsync | 0x05 => some .httpRequestMethod
  | 0x06 => some .httpRequestPath | 0x07 => some .httpRequestHeader
  | 0x08 => some .httpRequestBody | 0x09 => some .httpRequestHeaderCount
  | 0x0A => some .httpRequestBodyLength | 0x0B => some .httpWriterStatus
  | 0x0C => some .httpWriterHeader | 0x0D => some .httpWriterBody | 0x0E => some .httpWriterSend
  | 0x0F => some .httpWriterSendAsync | 0x10 => some .httpServerCheckReady
  | 0x11 => some .httpServerGetResult | 0x12 => some .httpServerPollReady
  | 0x13 => some .httpServerRemoveRequest | _ => none

/-- Sub-opcodes of the String prefix `0x4C`. -/
def decodeString (sub : UInt8) : Option Op :=
  match sub.toNat with
  | 0x00 => some .strLen | 0x01 => some .strSubstring | 0x02 => some .strIndexOf
  | 0x03 => some .strLastIndexOf | 0x04 => some .strStartsWith | 0x05 => some .strEndsWith
  | 0x06 => some .strSplit | 0x07 => some .strTrim | 0x08 => some .strToLower
  | 0x09 => some .strToUpper | 0x0A => some .strReplace | 0x0B => some .strCharAt
  | 0x0C => some .strContains | 0x0D => some .strRepeat | 0x0E => some .strParseInt
  | 0x0F => some .strParseFloat | 0x10 => some .strFromInt | 0x11 => some .strFromFloat
  | _ => none

/-- The decoder's arms without operands. -/
def plainOp (op : UInt8) : Option Op :=
  match op.toNat with
  | 0xFF => some .halt | 0x05 => some .printLn | 0x20 => some .addI64 | 0x21 => some .ltI64
  | 0x22 => some .subI64 | 0x23 => some .mulI64 | 0x24 => some .divI64 | 0x26 => some .modI64
  | 0x25 => some .eqI64 | 0x2C => some .eqStr | 0x2D => some .concatStr | 0x27 => some .shlI64
  | 0x28 => some .shrI64 | 0x29 => some .andI64 | 0x2A => some .orI64 | 0x2B => some .xorI64
  | 0x71 => some .ret | 0x40 => some .pop | 0x50 => some .printTop | 0x62 => some .toF64
  | 0x63 => some .toI64 | 0x66 => some .toI64OrEnumTag | 0x64 => some .toBool
  | 0x65 => some .toChar | 0x67 => some .toI8 | 0x68 => some .toI16 | 0x69 => some .toI32
  | 0x6A => some .toU8 | 0x6B => some .toU16 | 0x6C => some .toU32 | 0x6D => some .toU64
  | 0x6E => some .toF32 | 0x90 => some .sqrtF64 | 0x91 => some .powF64 | 0x92 => some .sinF64
  | 0x93 => some .cosF64 | 0x94 => some .tanF64 | 0x95 => some .floorF64 | 0x96 => some .ceilF64
  | 0x97 => some .roundF64 | 0xB0 => some .listNew | 0xB1 => some .listPush
  | 0xB2 => some .listGet | 0xB3 => some .listLen | 0xB8 => some .listSet
  | 0xBB => some .listRemove | 0xC4 => some .listSort | 0xB4 => some .mapNew
  | 0xB5 => some .mapPut | 0xB6 => some .mapGet | 0xB7 => some .mapLen
  | 0xC6 => some .mapContainsKey | 0xC8 => some .mapRemove | 0xCC => some .mapKeys
  | 0xCD => some .mapMerge | 0xA4 => some .optSome | 0xA5 => some .optNone
  | 0xA6 => some .optIsSome | 0xA7 => some .optUnwrap | 0xA8 => some .optOrElse
  | 0x72 => some .structNew | 0x73 => some .structSet | 0x74 => some .structGet
  | 0x75 => some .structGetNamed | 0x76 => some .structCopy | 0x77 => some .structTypeName
  | 0x78 => some .structFieldCount | 0x79 => some .enumNew | 0x7A => some .enumSetPayload
  | 0x7B => some .enumGetPayload | 0x7C => some .enumGetTag | 0x7D => some .enumGetVariant
  | 0x7E => some .enumTypeName | 0xE1 => some .jsonStringify | 0xE2 => some .jsonParse
  | 0xE3 => some .structToJson | 0xE4 => some .jsonToStruct | 0xE5 => some .htmlParse
  | 0xE6 => some .htmlParseFragment | 0xE7 => some .htmlStringify
  | 0xE8 => some .htmlStringifyPretty | 0xE9 => some .htmlFree | 0xEA => some .htmlNodeType
  | 0xEB => some .htmlTagName | 0xEC => some .htmlTextContent | 0xED => some .htmlInnerHtml
  | 0xEE => some .htmlOuterHtml | 0xEF => some .htmlGetAttr | 0xF0 => some .htmlHasAttr
  | 0xF1 => some .htmlAttrNames | 0xF2 => some .htmlParent | 0xF3 => some .htmlChildren
  | 0xF4 => some .htmlElementChildren | 0xF5 => some .htmlFirstChild
  | 0xF6 => some .htmlLastChild | 0xF7 => some .htmlNextSibling | 0xF8 => some .htmlPrevSibling
  | 0xF9 => some .htmlQuerySelector | 0xFA => some .htmlQuerySelectorAll
  | 0xFB => some .htmlGetById | 0xFC => some .htmlGetByTag | 0xFD => some .htmlGetByClass
  | 0xFE => some .htmlHasClass | 0x80 => some .templateCompile
  | 0x81 => some .templateCompileFile | 0x82 => some .templateRender
  | 0x83 => some .templateRegisterPartial | 0x84 => some .templateGetPartial
  | 0x85 => some .templateUnregisterPartial | 0x86 => some .templateFree
  | 0x87 => some .templateEscapeHtml | 0x88 => some .templateUnescapeHtml
  | 0xC0 => some .sharedNew | 0xC1 => some .sharedStore | 0xC2 => some .sharedLoad
  | 0xCF => some .closureCapture | 0xD1 => some .rcAlloc | 0xD2 => some .rcInc
  | 0xD3 => some .rcDec | 0xD5 => some .rcLoad | 0xD6 => some .rcStore | 0xD7 => some .rcGetCount
  | 0xDC => some .clearUnwindHandler | 0xDD => some .getPanicMessage | 0xDE => some .throw
  | 0xDF => some .getException | 0x4D => some .hostCallGeneric | 0xA9 => some .taskSpawn
  | 0xAA => some .taskPushArg | 0xAB => some .taskAwait | 0xAD => some .executorInit
  | 0xAE => some .executorThreadCount | 0xAF => some .executorActiveWorkers
  | 0x89 => some .executorSpawn | 0x8A => some .executorJoin | 0x8B => some .executorSpawnWithArg
  | 0x8C => some .executorActiveExecutorCount | 0x8D => some .executorWorkerTaskCount
  | 0x8E => some .executorResetStats | 0x8F => some .executorSpawnAwait
  | 0x98 => some .mpmcChanCreate | 0x99 => some .mpmcChanSend
  | 0x9A => some .mpmcChanSendBlocking | 0x9B => some .mpmcChanRecv
  | 0x9C => some .mpmcChanRecvBlocking | 0x9D => some .mpmcChanClose | 0x9E => some .mpmcChanLen
  | 0x9F => some .mpmcChanIsEmpty | 0xA0 => some .mpmcChanIsFull | 0x06 => some .mpmcChanIsClosed
  | 0x07 => some .mpmcChanCapacity | 0xB9 => some .mpmcChanSendWithTask
  | 0xBA => some .mpmcChanRecvWithTask | 0xBC => some .mpmcChanRecvAndWake
  | 0xBD => some .mpmcChanPopWaitingSender | 0xBE => some .mpmcChanGetWaitingSenderValue
  | 0xBF => some .mpmcChanPopWaitingReceiver | 0xC5 => some .mpmcChanWaitingSenderCount
  | 0xC7 => some .mpmcChanWaitingReceiverCount | 0xC9 => some .mpmcChanGetWokenSender
  | 0xCA => some .mpmcChanSendAndWake | 0xCB => some .mpmcChanGetWokenReceiver
  | 0x14 => some .mpmcChanSelectClear | 0x15 => some .mpmcChanSelectAdd
  | 0x16 => some .mpmcChanSelectCount | 0x17 => some .mpmcChanTrySelectRecv
  | 0x18 => some .mpmcChanSelectRecvBlocking | 0x19 => some .mpmcChanSelectRecvWithTask
  | 0x1A => some .mpmcChanSelectGetReadyIndex | 0x1B => some .mpmcChanSelectGetValue
  | 0x1C => some .mpmcChanSelectDeregister | 0x1D => some .mpmcChanSelectGetHandle
  | 0x08 => some .actorCreate | 0x09 => some .actorSpawn | 0x0A => some .actorSend
  | 0x0B => some .actorSendBlocking | 0x0C => some .actorRecv | 0x0D => some .actorRecvBlocking
  | 0x0E => some .actorClose | 0x0F => some .actorStop | 0x1E => some .actorGetTask
  | 0x1F => some .actorGetMailbox | 0x2E => some .actorIsRunning | 0x2F => some .actorGetState
  | 0x3E => some .actorMessageCount | 0x3F => some .actorMailboxEmpty
  | 0x4E => some .actorMailboxLen | 0x4F => some .actorSetTask | 0x51 => some .actorIsFailed
  | 0x5E => some .actorMarkStopped | 0x5F => some .actorMarkFailed | 0x52 => some .atomicCreate
  | 0x53 => some .atomicLoad | 0x54 => some .atomicStore | 0x55 => some .atomicCas
  | 0x56 => some .atomicFetchAdd | 0x57 => some .atomicFetchSub | 0x58 => some .atomicSwap
  | 0x59 => some .atomicGet | 0x5A => some .atomicSet | 0x5B => some .atomicInc
  | 0x5C => some .atomicDec | 0x32 => some .eventLoopCreate
  | 0x33 => some .eventLoopRegisterTimer | 0x34 => some .eventLoopRegisterFd
  | 0x35 => some .eventLoopDeregister | 0x36 => some .eventLoopPoll
  | 0x37 => some .eventLoopGetEvent | 0x38 => some .eventLoopGetEventType
  | 0x39 => some .eventLoopClose | 0x3A => some .eventLoopPipeCreate
  | 0x3B => some .eventLoopPipeGetWriteFd | 0x3C => some .eventLoopPipeWrite
  | 0x3D => some .eventLoopPipeRead | 0x41 => some .eventLoopPipeClose | 0x42 => some .timerSleep
  | 0x43 => some .timerSleepAsync | 0x44 => some .timerCheckExpired
  | 0x45 => some .timerGetWaitingTask | 0x46 => some .timerCancel
  | 0x47 => some .timerPollExpired | 0x48 => some .timerNow | 0x49 => some .timerElapsed
  | 0x4A => some .timerRemove | 0x4B => some .timerRemaining | _ => none

/-- The decoder's arms that read on, and its error for the opcode at `opOffset`. -/
def operandArm (op : UInt8) (opOffset : Nat) : Reader DecodeError Op :=
  match op.toNat with
  | 0x01 => u32Arm .print | 0x02 => u32Arm .printStrVal | 0x03 => u32Arm .printRaw
  | 0x04 => u32Arm .printRawStrVal | 0x10 => i64Arm .pushI64 | 0x12 => f64Arm .pushF64
  | 0x11 => byteArm "unexpected EOF while reading bool" .pushBool | 0x13 => u32Arm .pushStr
  | 0x30 => u32Arm .jump | 0x31 => u32Arm .jumpIfFalse | 0x70 => u32Arm .call
  | 0x00 => u32Arm .callSymbol | 0xE0 => decodeExternCall | 0x60 => u32Arm .localGet
  | 0x61 => u32Arm .localSet | 0xC3 => u32Arm .sharedGetByName
  | 0xCE => readU32 >>= fun f => u32Arm (.closureNew f) | 0xD0 => u32Arm .closureCall
  | 0xD4 => u32Arm .rcDecWithDeinit | 0xD8 => u32Arm .regionEnter | 0xD9 => u32Arm .regionExit
  | 0xDA => u32Arm .panic | 0xDB => u32Arm .setUnwindHandler | 0xA1 => decodeHostIo
  | 0xA2 => hostArm "HostNetOp" HostNetOp.fromU8 .hostCallNet
  | 0xA3 => hostArm "HostTimeOp" HostTimeOp.fromU8 .hostCallTime | 0xAC => u32Arm .taskRunBody
  | 0x6F => subArm "TCP" 0x6F decodeTcp | 0x7F => subArm "HTTP client" 0x7F decodeHttpClient
  | 0x5D => subArm "HTTP server" 0x5D decodeHttpServer
  | 0x4C => subArm "String" 0x4C decodeString
  | _ => .fail fun _ => .detailed (.unknownOpcode op) .instructions opOffset

def decodeArm (op : UInt8) (opOffset : Nat) : Reader DecodeError Op :=
  match plainOp op with
  | some o => pure o
  | none => operandArm op opOffset

def decodeOp : Reader DecodeError Op :=
  Reader.pos >>= fun opOffset =>
    Reader.byte (eof "opcode" .instructions) >>= fun op => decodeArm op opOffset

/-! ## Tables -/

def encodeString (s : String) : List UInt8 := lenLe (asBytes s).length ++ asBytes s

def readString : Reader DecodeError String :=
  readU32 >>= fun len => readText len.toNat "string data" .stringTable

def encodeAsync (e : Int64 × UInt32) : List UInt8 := i64Le e.1 ++ u32Le e.2

def readAsync : Reader DecodeError (Int64 × UInt32) :=
  Reader.take 12 (eof "async dispatch entry (12 bytes)" .asyncDispatch) >>= fun bs =>
    pure ((UInt64.ofNat (ofLe (bs.take 8))).toInt64, UInt32.ofNat (ofLe (bs.drop 8)))

/-- The source file of a debug entry: length 0 means none. -/
def encodeSourceFile : Option String → List UInt8
  | some file => encodeString file
  | none => u32Le 0

def readSourceFile : Reader DecodeError (Option String) :=
  readU32 >>= fun len =>
    if 0 < len.toNat then
      readText len.toNat "debug entry source file" .debugInfo >>= fun file => pure (some file)
    else pure none

def encodeDebugEntry (e : DebugEntry) : List UInt8 :=
  u32Le e.offset ++ encodeString e.functionName ++ encodeSourceFile e.sourceFile ++ u32Le e.line

def readDebugEntry : Reader DecodeError DebugEntry := do
  let offset ← readU32
  let len ← readU32
  let functionName ← readText len.toNat "debug entry function name" .debugInfo
  let sourceFile ← readSourceFile
  let line ← readU32
  pure { offset, functionName, sourceFile, line }

/-- The bytes of all instructions, `none` when one of them is not encodable. -/
def encodeCode : List Op → Option (List UInt8)
  | [] => some []
  | op :: ops => do
    let bs ← encodeOp op
    let rest ← encodeCode ops
    pure (bs ++ rest)

def encodeProgram (p : Program) : Option (List UInt8) := do
  let code ← encodeCode p.code
  pure (magic ++
    (lenLe p.strings.length ++ p.strings.flatMap encodeString) ++
    (lenLe p.code.length ++ code) ++
    (lenLe p.asyncDispatch.length ++ p.asyncDispatch.flatMap encodeAsync) ++
    (lenLe p.debugEntries.length ++ p.debugEntries.flatMap encodeDebugEntry))

/-- A counted table. -/
def readTable {α : Type} (r : Reader DecodeError α) : Reader DecodeError (List α) :=
  readU32 >>= fun n => r.many n.toNat

/-- A counted table that older files end before. -/
def readOptTable {α : Type} (r : Reader DecodeError α) : Reader DecodeError (List α) :=
  Reader.more >>= fun m => if m then readTable r else pure []

def decodeBody : Reader DecodeError Program := do
  let strings ← readTable readString
  let code ← readTable decodeOp
  let asyncDispatch ← readOptTable readAsync
  let debugEntries ← readOptTable readDebugEntry
  pure { strings, code, asyncDispatch, debugEntries }

def decodeProgram (bytes : List UInt8) : Except DecodeError Program :=
  match validateBytecodeHeader bytes with
  | .error e => .error e
  | .ok _ =>
    match decodeBody bytes magic.length with
    | .ok (p, _) => .ok p
    | .error e => .error e

end Arth
