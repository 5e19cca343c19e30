import Arth.Vm.Program

/-!
# Operands and results of the instructions

Outside control transfer an instruction of the interpreter pops its operands one by one,
calls the function it stands for and pushes what it got.

* `Operand` — one `stack.pop()`: the values it takes, and what the arm does with
  anything else (fail, substitute a default, skip it, or push an error value and go on).
* `Sig` — the pops of one instruction, in order, and the number of values it pushes.
* `Op.sig` and the `sig` of the host-call enums — the table for every instruction.
-/

namespace Arth

inductive Value where
  | i64 (n : Int64)
  | f64 (x : F64)
  | bool (b : Bool)
  | str (s : String)
  deriving DecidableEq

/-- The values one `stack.pop()` of the interpreter matches. -/
inductive Accept where
  | any | i64 | i64Pos | i64NonNeg | i64Cost | str | strOrI64 | num | scalar
  deriving DecidableEq

def Accept.takes : Accept → Value → Bool
  | .any, _ => true
  | .i64, .i64 _ => true
  | .i64Pos, .i64 n => 0 < n
  | .i64NonNeg, .i64 n => 0 ≤ n
  | .i64Cost, .i64 n => 4 ≤ n && n ≤ 31
  | .str, .str _ => true
  | .strOrI64, .str _ => true
  | .strOrI64, .i64 _ => true
  | .num, .f64 _ => true
  | .num, .i64 _ => true
  | .scalar, .f64 _ => true
  | .scalar, .i64 _ => true
  | .scalar, .bool _ => true
  | _, _ => false

/-- What an arm does when the stack is empty or the value popped is not one it takes. -/
inductive Otherwise where
  | fail
  | use (v : Value)
  | skip
  | abort (v : Value)
  deriving DecidableEq

structure Operand where
  accept : Accept
  otherwise : Otherwise
  deriving DecidableEq

/-- How many values an instruction pushes: `oneOr n` is `n` on success and one error
value otherwise. -/
inductive Results where
  | none
  | one
  | oneOr (n : Nat)
  deriving DecidableEq

/-- The pops and pushes of one instruction; `drains` marks the arms that first empty the
whole stack. -/
structure Sig where
  operands : List Operand
  results : Results
  drains : Bool
  deriving DecidableEq

def reads (operands : List Operand) (results : Results) : Sig := ⟨operands, results, false⟩

/-- The values pushed out of those the instruction's function returns. -/
def Results.shape : Results → List Value → List Value
  | .none, _ => []
  | .one, vs => [vs.headD (.i64 0)]
  | .oneOr n, vs => if vs.length = n then vs else [vs.headD (.i64 (-1))]

/-! ## The forms of `stack.pop()` in the interpreter -/

def popAny : Operand := ⟨.any, .fail⟩
def popI64 : Operand := ⟨.i64, .fail⟩
def popStr : Operand := ⟨.str, .fail⟩
def popStrOrI64 : Operand := ⟨.strOrI64, .fail⟩
def popNum : Operand := ⟨.num, .fail⟩
def popScalar : Operand := ⟨.scalar, .fail⟩
def popOptional : Operand := ⟨.any, .skip⟩
def anyOrZero : Operand := ⟨.any, .use (.i64 0)⟩
def i64Or (n : Int64) : Operand := ⟨.i64, .use (.i64 n)⟩
def strOr : Operand := ⟨.str, .use (.str "")⟩
def strOrI64Or : Operand := ⟨.strOrI64, .use (.str "")⟩
def strOrI64OrZero : Operand := ⟨.strOrI64, .use (.i64 0)⟩
def numOr (v : Value) : Operand := ⟨.num, .use v⟩
def payload : Operand := ⟨.str, .abort (.str "\x7b\"error\":\"invalid payload\"\x7d")⟩
def i64Else (v : Value) : Operand := ⟨.i64, .abort v⟩
def strElse (v : Value) : Operand := ⟨.str, .abort v⟩
def strOrI64Else (v : Value) : Operand := ⟨.strOrI64, .abort v⟩
def anyOrErr : Operand := ⟨.any, .abort (.i64 (-1))⟩
def i64OrErr : Operand := ⟨.i64, .abort (.i64 (-1))⟩
def lenOrErr : Operand := ⟨.i64NonNeg, .abort (.i64 (-1))⟩
def posOrErr : Operand := ⟨.i64Pos, .abort (.i64 (-1))⟩
def costOrErr : Operand := ⟨.i64Cost, .abort (.i64 (-1))⟩
def strOrErr : Operand := ⟨.str, .abort (.i64 (-1))⟩
def textOrErr : Operand := ⟨.strOrI64, .abort (.i64 (-1))⟩
def numOrErr : Operand := ⟨.num, .abort (.i64 (-1))⟩

inductive Popped where
  | taken (args : List Value) (rest : List Value)
  | aborted (v : Value) (rest : List Value)
  | failed
  deriving DecidableEq

def Popped.arg (v : Value) : Popped → Popped
  | .taken args rest => .taken (v :: args) rest
  | r => r

def popOperands : List Operand → List Value → Popped
  | [], st => .taken [] st
  | o :: os, st =>
    let rest := st.tail
    match st.head?.filter o.accept.takes with
    | some v => (popOperands os rest).arg v
    | none =>
      match o.otherwise with
      | .fail => .failed
      | .use v => (popOperands os rest).arg v
      | .skip => popOperands os rest
      | .abort v => .aborted v rest

/-- Pops and pushes of the instructions that neither transfer control, nor touch the
locals, nor ask for a capability. -/
def Op.sig : Op → Option Sig
  | .print .. | .printRaw .. | .printLn | .mpmcChanSelectClear => reads [] .none
  | .printStrVal .. | .printRawStrVal .. | .printTop => reads [popOptional] .none
  | .pushI64 .. | .pushF64 .. | .pushBool .. | .pushStr .. | .listNew | .mapNew | .optNone
    | .sharedNew | .sharedGetByName .. | .closureNew .. | .regionEnter .. | .regionExit ..
    | .getPanicMessage | .executorThreadCount | .executorActiveWorkers
    | .executorActiveExecutorCount | .executorResetStats | .mpmcChanGetWaitingSenderValue
    | .mpmcChanGetWokenSender | .mpmcChanGetWokenReceiver | .mpmcChanSelectCount
    | .mpmcChanTrySelectRecv | .mpmcChanSelectRecvBlocking | .mpmcChanSelectGetReadyIndex
    | .mpmcChanSelectGetValue | .eventLoopCreate | .eventLoopPipeCreate | .eventLoopPipeGetWriteFd
    | .timerPollExpired | .timerNow | .tcpStreamGetLastRead | .tcpPollReady | .httpPollReady
    | .httpServerPollReady => reads [] .one
  | .addI64 | .subI64 | .mulI64 | .divI64 | .modI64 | .ltI64 | .eqI64 | .eqStr | .concatStr
    | .powF64 => reads [popAny, popAny] .one
  | .shlI64 | .shrI64 | .andI64 | .orI64 | .xorI64 | .listRemove | .mapMerge | .structGet
    | .structCopy | .enumGetPayload | .htmlStringifyPretty | .templateRender | .taskSpawn =>
    reads [popI64, popI64] .one
  | .toF64 | .toI64 | .toI64OrEnumTag | .toBool | .toChar | .toI8 | .toI16 | .toI32 | .toU8
    | .toU16 | .toU32 | .toU64 | .toF32 => reads [anyOrZero] .one
  | .sqrtF64 | .optSome | .jsonStringify | .jsonParse | .htmlParse | .htmlParseFragment
    | .rcAlloc => reads [popAny] .one
  | .sinF64 | .cosF64 | .tanF64 | .floorF64 | .ceilF64 | .roundF64 => reads [popScalar] .one
  | .listPush | .mapGet | .mapContainsKey | .mapRemove | .optOrElse | .sharedStore | .rcStore
    | .taskPushArg => reads [popAny, popI64] .one
  | .listGet | .jsonGetIndex => reads [popNum, popI64] .one
  | .listSet | .enumSetPayload => reads [popAny, popI64, popI64] .one
  | .listLen | .listSort | .mapLen | .mapKeys | .strFromInt | .optIsSome | .optUnwrap
    | .structTypeName | .structFieldCount | .enumGetTag | .enumGetVariant | .enumTypeName
    | .jsonGetString | .jsonGetNumber | .jsonGetBool | .jsonIsNull | .jsonIsObject | .jsonIsArray
    | .jsonArrayLen | .jsonKeys | .htmlStringify | .htmlNodeType | .htmlTagName | .htmlTextContent
    | .htmlInnerHtml | .htmlOuterHtml | .htmlAttrNames | .htmlParent | .htmlChildren
    | .htmlElementChildren | .htmlFirstChild | .htmlLastChild | .htmlNextSibling | .htmlPrevSibling
    | .sharedLoad | .rcInc | .rcDec | .rcLoad | .rcGetCount => reads [popI64] .one
  | .mapPut => reads [popAny, popAny, popI64] .one
  | .strLen | .strTrim | .strToLower | .strToUpper | .strParseInt | .strParseFloat =>
    reads [popStrOrI64] .one
  | .strSubstring => reads [popI64, popI64, popStrOrI64] .one
  | .strIndexOf | .strLastIndexOf | .strStartsWith | .strEndsWith | .strSplit | .strContains =>
    reads [popStrOrI64, popStrOrI64] .one
  | .strReplace => reads [popStrOrI64, popStrOrI64, popStrOrI64] .one
  | .strCharAt | .strRepeat => reads [popI64, popStrOrI64] .one
  | .strFromFloat => reads [popNum] .one
  | .structNew => reads [popI64, strOrI64Or] .one
  | .structSet => reads [strOrI64Or, popAny, popI64, popI64] .one
  | .structGetNamed => reads [strOrI64Or, popI64] .one
  | .structSetNamed => reads [popAny, strOrI64Or, popI64] .one
  | .enumNew => reads [popI64, popI64, strOrI64Or, strOrI64Or] .one
  | .structToJson | .jsonGetField | .htmlGetAttr | .htmlHasAttr | .htmlQuerySelector
    | .htmlQuerySelectorAll | .htmlGetById | .htmlGetByTag | .htmlGetByClass | .htmlHasClass =>
    reads [popStr, popI64] .one
  | .jsonToStruct => reads [popStr, popAny] .one
  | .htmlFree | .templateFree => reads [popI64] .none
  | .templateCompile | .templateCompileFile | .templateGetPartial | .templateEscapeHtml
    | .templateUnescapeHtml => reads [popStr] .one
  | .templateRegisterPartial => reads [popI64, popStr] .none
  | .templateUnregisterPartial => reads [popStr] .none
  | .closureCapture => reads [popI64, popAny] .one
  | .bigDecimalNew | .bigIntNew => reads [strOrI64Or] .one
  | .bigDecimalFromInt | .bigDecimalNegate | .bigDecimalToString | .bigDecimalToInt
    | .bigDecimalToFloat | .bigDecimalScale | .bigIntFromInt | .bigIntNegate | .bigIntToString
    | .bigIntToInt | .executorSpawn | .executorJoin | .executorWorkerTaskCount | .mpmcChanCreate
    | .mpmcChanRecv | .mpmcChanRecvBlocking | .mpmcChanClose | .mpmcChanLen | .mpmcChanIsEmpty
    | .mpmcChanIsFull | .mpmcChanIsClosed | .mpmcChanCapacity | .mpmcChanRecvAndWake
    | .mpmcChanPopWaitingSender | .mpmcChanPopWaitingReceiver | .mpmcChanWaitingSenderCount
    | .mpmcChanWaitingReceiverCount | .mpmcChanSelectAdd | .mpmcChanSelectRecvWithTask
    | .atomicCreate | .timerElapsed => reads [i64Or 0] .one
  | .bigDecimalFromFloat => reads [numOr (.f64 ⟨0⟩)] .one
  | .bigDecimalAdd | .bigDecimalSub | .bigDecimalMul | .bigDecimalRem | .bigDecimalPow
    | .bigDecimalCompare | .bigIntAdd | .bigIntSub | .bigIntMul | .bigIntDiv | .bigIntRem
    | .bigIntPow | .bigIntCompare | .executorSpawnWithArg | .mpmcChanSend | .mpmcChanSendBlocking
    | .mpmcChanRecvWithTask | .mpmcChanSendAndWake => reads [i64Or 0, i64Or 0] .one
  | .bigDecimalDiv => reads [i64Or 10, i64Or 0, i64Or 0] .one
  | .bigDecimalSetScale | .bigDecimalRound | .mpmcChanSendWithTask =>
    reads [i64Or 0, i64Or 0, i64Or 0] .one
  | .hostCallGeneric => reads [payload] .one
  | .executorInit => reads [i64Or 4] .one
  | .executorSpawnAwait => reads [i64Or 0, i64Or 0, i64Or 2] .one
  | .mpmcChanSelectDeregister => reads [i64Or (-1), i64Or 0] .none
  | .mpmcChanSelectGetHandle | .actorRecv | .actorRecvBlocking | .actorClose | .actorStop
    | .actorGetTask | .actorGetMailbox | .actorIsRunning | .actorGetState | .actorMessageCount
    | .actorMailboxEmpty | .actorMailboxLen | .actorMarkStopped | .actorMarkFailed | .actorIsFailed
    | .atomicLoad | .atomicGet | .atomicInc | .atomicDec | .eventLoopGetEvent
    | .eventLoopGetEventType | .eventLoopClose | .eventLoopPipeRead | .eventLoopPipeClose
    | .timerCheckExpired | .timerGetWaitingTask | .timerCancel | .timerRemove | .timerRemaining
    | .tcpListenerBind | .tcpListenerAccept | .tcpListenerClose | .tcpListenerLocalPort
    | .tcpStreamClose | .tcpCheckReady | .tcpGetResult | .tcpRemoveRequest | .httpResponseStatus
    | .httpResponseBody | .httpResponseClose | .httpCheckReady | .httpGetResult
    | .httpRemoveRequest | .httpGetBodyLength | .httpGetHeaderCount | .httpServerCreate
    | .httpServerClose | .httpServerGetPort | .httpServerAccept | .httpRequestMethod
    | .httpRequestPath | .httpRequestBody | .httpRequestHeaderCount | .httpRequestBodyLength
    | .httpWriterSend | .httpServerCheckReady | .httpServerGetResult | .httpServerRemoveRequest =>
    reads [i64Or (-1)] .one
  | .actorCreate => reads [i64Or 10] .one
  | .actorSpawn => reads [i64Or 0, i64Or 10] .one
  | .actorSend | .actorSendBlocking | .actorSetTask | .atomicStore | .atomicFetchAdd
    | .atomicFetchSub | .atomicSwap | .atomicSet | .eventLoopRegisterTimer | .eventLoopPoll
    | .eventLoopPipeWrite | .tcpStreamRead | .tcpStreamWrite | .tcpStreamSetTimeout =>
    reads [i64Or 0, i64Or (-1)] .one
  | .atomicCas => reads [i64Or 0, i64Or 0, i64Or (-1)] .one
  | .eventLoopRegisterFd => reads [i64Or 0, i64Or (-1), i64Or (-1)] .one
  | .eventLoopDeregister | .tcpListenerAcceptAsync | .httpServerAcceptAsync
    | .httpWriterSendAsync => reads [i64Or (-1), i64Or (-1)] .one
  | .timerSleep => reads [i64Or 0] .none
  | .timerSleepAsync | .tcpStreamConnect => reads [i64Or (-1), i64Or 0] .one
  | .tcpStreamConnectAsync => reads [i64Or (-1), i64Or (-1), i64Or 0] .one
  | .tcpStreamReadAsync | .tcpStreamWriteAsync => reads [i64Or (-1), i64Or 0, i64Or (-1)] .one
  | .httpGet => reads [i64Or 0, strOr] .one
  | .httpPost => reads [i64Or 0, strOr, strOr] .one
  | .httpGetAsync => reads [i64Or (-1), i64Or 0, strOr] .one
  | .httpPostAsync => reads [i64Or (-1), i64Or 0, strOr, strOr] .one
  | .httpResponseHeader | .httpRequestHeader | .httpWriterBody => reads [strOr, i64Or (-1)] .one
  | .httpWriterStatus => reads [i64Or 200, i64Or (-1)] .one
  | .httpWriterHeader => reads [strOr, strOr, i64Or (-1)] .one
  | _ => none

def HostIoOp.sig : HostIoOp → Sig
  | .fileOpen => reads [i64OrErr, strOrErr] .one
  | .fileClose | .fileFlush => reads [i64OrErr] .one
  | .fileRead => reads [i64OrErr, i64OrErr] .one
  | .fileWrite | .fileWriteStr => reads [textOrErr, i64OrErr] .one
  | .fileSeek => reads [i64OrErr, i64OrErr, i64OrErr] .one
  | .fileSize | .fileDelete | .dirCreate | .dirCreateAll | .dirDelete | .dirList =>
    reads [strOrErr] .one
  | .fileExists | .dirExists | .isDir | .isFile => reads [strElse (.i64 0)] .one
  | .fileCopy | .fileMove => reads [strOrErr, strOrErr] .one
  | .pathAbsolute => reads [strElse (.str "")] .one
  | .consoleReadLine => reads [] .one
  | .consoleWrite | .consoleWriteErr => reads [anyOrErr] .one

def HostNetOp.sig : HostNetOp → Sig
  | .httpFetch => reads [textOrErr] .one
  | .httpServe | .httpAccept | .wsAccept | .wsRecv | .wsIsOpen | .sseAccept | .sseClose
    | .sseIsOpen => reads [i64Or (-1)] .one
  | .httpRespond => reads [popOptional, popOptional, popOptional] .none
  | .wsServe | .sseServe => reads [i64Or 0, i64Or (-1)] .one
  | .wsSendText => reads [strOrI64OrZero, i64Or (-1)] .one
  | .wsSendBinary => reads [popOptional, i64Or (-1)] .one
  | .wsClose => reads [i64Or 0, i64Or 1000, i64Or (-1)] .one
  | .sseSend => reads [i64Or 0, i64Or 0, i64Or 0, i64Or (-1)] .one

/-- The two date operations that are `not yet implemented` fail. -/
def HostTimeOp.sig : HostTimeOp → Option Sig
  | .instantNow | .dateTimeNow => reads [] .one
  | .instantElapsed => reads [i64Else (.i64 (-1))] .one
  | .sleep => reads [i64Or 0] .none
  | .dateTimeParse | .dateTimeFormat => none

/-- `dispatch_host_db`. -/
def HostDbOp.sig : HostDbOp → Sig
  | .sqliteOpen | .pgConnect => reads [textOrErr] .one
  | .sqliteClose | .sqliteStep | .sqliteFinalize | .sqliteReset | .sqliteBegin | .sqliteCommit
    | .sqliteRollback | .pgDisconnect | .pgBegin | .pgCommit | .pgRollback | .pgFreeResult
    | .pgDisconnectAsync | .pgStatusAsync | .pgIsReady | .pgGetAsyncResult | .pgCancelAsync
    | .pgBeginAsync | .pgCommitAsync | .pgRollbackAsync | .sqlitePoolClose | .sqlitePoolAcquire
    | .pgPoolClose | .pgPoolAcquire | .sqliteTxScopeBegin | .sqliteTxDepth | .sqliteTxActive
    | .pgTxScopeBegin | .pgTxDepth | .pgTxActive => reads [i64OrErr] .one
  | .sqlitePrepare | .sqliteSavepoint | .sqliteReleaseSavepoint | .sqliteRollbackToSavepoint
    | .sqliteQuery | .sqliteExecute | .pgQuery | .pgExecute | .pgSavepoint | .pgReleaseSavepoint
    | .pgRollbackToSavepoint => reads [textOrErr, i64OrErr] .one
  | .sqliteBindInt | .sqliteBindInt64 | .sqliteTxScopeEnd | .pgTxScopeEnd =>
    reads [i64OrErr, i64OrErr, i64OrErr] .one
  | .sqliteBindDouble => reads [numOrErr, i64OrErr, i64OrErr] .one
  | .sqliteBindText | .sqliteBindBlob => reads [textOrErr, i64OrErr, i64OrErr] .one
  | .sqliteBindNull | .pgExecutePrepared | .sqlitePoolRelease | .pgPoolRelease =>
    reads [i64OrErr, i64OrErr] .one
  | .sqliteColumnInt | .sqliteColumnInt64 | .pgColumnType =>
    reads [i64Else (.i64 0), i64Else (.i64 0)] .one
  | .sqliteColumnDouble => reads [i64Else (.f64 ⟨0⟩), i64Else (.f64 ⟨0⟩)] .one
  | .sqliteColumnText | .sqliteColumnBlob | .sqliteColumnName | .pgColumnName =>
    reads [i64Else (.str ""), i64Else (.str "")] .one
  | .sqliteColumnType => reads [i64Else (.i64 5), i64Else (.i64 5)] .one
  | .sqliteColumnCount | .sqliteChanges | .sqliteLastInsertRowid | .pgStatus | .pgRowCount
    | .pgColumnCount | .pgAffectedRows => reads [i64Else (.i64 0)] .one
  | .sqliteIsNull => reads [i64Else (.i64 1), i64Else (.i64 1)] .one
  | .sqliteErrmsg | .pgErrmsg => reads [i64Else (.str "")] .one
  | .pgPrepare => reads [textOrErr, textOrErr, i64OrErr] .one
  | .pgGetValue | .pgGetText | .pgGetBytes =>
    reads [i64Else (.str ""), i64Else (.str ""), i64Else (.str "")] .one
  | .pgGetInt | .pgGetInt64 | .pgGetBool =>
    reads [i64Else (.i64 0), i64Else (.i64 0), i64Else (.i64 0)] .one
  | .pgGetDouble => reads [i64Else (.f64 ⟨0⟩), i64Else (.f64 ⟨0⟩), i64Else (.f64 ⟨0⟩)] .one
  | .pgIsNull => reads [i64Else (.i64 1), i64Else (.i64 1), i64Else (.i64 1)] .one
  | .pgEscape => reads [strOrI64Else (.str ""), i64Else (.str "")] .one
  | .pgConnectAsync => reads [strOrErr] .one
  | .pgQueryAsync | .pgExecuteAsync | .pgExecutePreparedAsync => reads [strOrErr, i64OrErr] .one
  | .pgPrepareAsync => reads [strOrErr, strOrErr, i64OrErr] .one
  | .sqlitePoolCreate | .pgPoolCreate =>
    reads [i64OrErr, i64OrErr, i64OrErr, i64OrErr, i64OrErr, i64OrErr, i64OrErr] .one
  | .sqlitePoolStats | .pgPoolStats => reads [i64OrErr] (.oneOr 4)

/-- `dispatch_host_mail`. -/
def HostMailOp.sig : HostMailOp → Sig
  | .smtpConnect | .imapConnect | .pop3Connect =>
    reads [i64OrErr, i64OrErr, i64OrErr, textOrErr] .one
  | .smtpStartTls | .smtpQuit | .smtpNoop | .smtpReset | .smtpData | .smtpEndData
    | .smtpReadResponse | .smtpGetResponseCode | .smtpGetResponseMessage | .smtpGetCapabilities
    | .imapStartTls | .imapLogout | .imapNoop | .imapCapability | .imapExpunge | .pop3StartTls
    | .pop3Quit | .pop3List | .pop3Uidl | .pop3Reset | .mimeMessageSerialize
    | .mimeMessageGetBody => reads [i64OrErr] .one
  | .smtpAuth | .smtpSendMessage | .imapStore | .mimeMessageAddAttachment
    | .mimeMessageAddInline => reads [textOrErr, textOrErr, textOrErr, i64OrErr] .one
  | .smtpEhlo | .smtpMailFrom | .smtpRcptTo | .smtpSendData | .imapSelect | .imapExamine
    | .imapSearch | .mimeMessageGetHeader => reads [textOrErr, i64OrErr] .one
  | .smtpVerify | .smtpExpand | .imapCreate | .imapDelete | .imapRename | .imapSubscribe
    | .imapUnsubscribe | .imapLsub | .imapStatus | .mimeMessageBuildMultipart =>
    reads [popOptional, popOptional] .one
  | .imapAuth | .imapAuthOAuth | .imapList | .imapFetch | .pop3Auth | .pop3AuthApop
    | .mimeMessageSetHeader | .mimeMessageSetBody => reads [textOrErr, textOrErr, i64OrErr] .one
  | .imapCopy | .imapMove | .imapAppend | .pop3Top =>
    reads [popOptional, popOptional, popOptional] .one
  | .imapIdle | .pop3Retr | .pop3Dele => reads [i64OrErr, i64OrErr] .one
  | .imapIdleDone | .imapIdlePoll | .pop3Noop | .mimeMessageGetAttachments
    | .mimeMessageGetAllHeaders | .tlsContextNew | .tlsUpgrade | .tlsHandshake | .tlsRead
    | .tlsWrite | .tlsClose | .tlsSetCert | .tlsSetVerify => reads [popOptional] .one
  | .pop3Stat => reads [i64OrErr] (.oneOr 2)
  | .mimeBase64Encode | .mimeBase64Decode | .mimeQuotedPrintableEncode | .mimeQuotedPrintableDecode
    | .mimeDecodeHeader | .mimeMessageParse => reads [textOrErr] .one
  | .mimeEncodeHeader => reads [textOrErr, textOrErr] .one
  | .mimeMessageNew => reads [] .one

/-- `dispatch_host_crypto`. -/
def HostCryptoOp.sig : HostCryptoOp → Sig
  | .secureAlloc => reads [posOrErr] .one
  | .secureFree | .secureLen | .hasherNew | .nonceTrackingEnable => reads [i64OrErr] .one
  | .securePtr => reads [i64Else (.i64 0)] .one
  | .secureWrite | .secureRead | .secureCompare | .hasherUpdate | .hasherFinalize
    | .aeadGenerateNonce => reads [lenOrErr, i64OrErr, i64OrErr] .one
  | .secureZero | .randomBytes | .randomSalt => reads [lenOrErr, i64OrErr] .one
  | .hash | .signatureGenerateKeypair | .signatureDerivePublicKey | .kexGenerateKeypair =>
    reads [lenOrErr, i64OrErr, lenOrErr, i64OrErr, i64OrErr] .one
  | .hmac | .signatureSign | .signatureVerify | .signatureSignHash | .signatureVerifyHash
    | .kexAgree => reads [lenOrErr, i64OrErr, lenOrErr, i64OrErr, lenOrErr, i64OrErr, i64OrErr] .one
  | .aeadEncrypt | .aeadDecrypt =>
    reads [lenOrErr, i64OrErr, lenOrErr, i64OrErr, lenOrErr, i64OrErr, lenOrErr, i64OrErr,
      lenOrErr, i64OrErr, i64OrErr] .one
  | .kexAgreeWithKdf =>
    reads [lenOrErr, i64OrErr, lenOrErr, i64OrErr, lenOrErr, i64OrErr, lenOrErr, i64OrErr,
      lenOrErr, i64OrErr, i64OrErr, i64OrErr] .one
  | .kdfHkdf =>
    reads [lenOrErr, i64OrErr, lenOrErr, i64OrErr, lenOrErr, i64OrErr, lenOrErr, i64OrErr,
      i64OrErr] .one
  | .kdfPbkdf2 =>
    reads [lenOrErr, i64OrErr, posOrErr, lenOrErr, i64OrErr, lenOrErr, i64OrErr, i64OrErr] .one
  | .kdfArgon2 =>
    reads [lenOrErr, i64OrErr, posOrErr, posOrErr, posOrErr, lenOrErr, i64OrErr, lenOrErr,
      i64OrErr] .one
  | .passwordHashBcrypt => reads [lenOrErr, i64OrErr, costOrErr, lenOrErr, i64OrErr] .one
  | .passwordHashArgon2 =>
    reads [lenOrErr, i64OrErr, posOrErr, posOrErr, posOrErr, lenOrErr, i64OrErr] .one
  | .passwordVerify => reads [i64OrErr, lenOrErr, i64OrErr] .one
  | .encodingToHex | .encodingFromHex | .encodingToBase64 | .encodingFromBase64
    | .encodingToBase64Url | .encodingFromBase64Url | .nonceCheck | .nonceMarkUsed
    | .nonceCheckAndMark => reads [lenOrErr, i64OrErr, lenOrErr, i64OrErr] .one
  | .nonceClear => reads [] .one
  | .hmacNew | .hmacUpdate | .hmacFinalize | .hmacVerify => ⟨[], .one, true⟩

end Arth
