/-!
# The VM instruction set

`Op` is the instruction type of the virtual machine, with the six host-operation
enums that some instructions carry. `toU8` is the discriminant the encoder writes
and `fromU8` the decoder's table; `fromU8_toU8` is the round trip of each enum.
-/

namespace Arth

/-- Host IO operations for file, directory, path, and console access. -/
inductive HostIoOp where
  | fileOpen | fileClose | fileRead | fileWrite | fileWriteStr | fileFlush | fileSeek | fileSize
  | fileExists | fileDelete | fileCopy | fileMove | dirCreate | dirCreateAll | dirDelete
  | dirList | dirExists | isDir | isFile | pathAbsolute | consoleReadLine | consoleWrite
  | consoleWriteErr
  deriving DecidableEq

def HostIoOp.toU8 : HostIoOp → UInt8
  | .fileOpen => 0 | .fileClose => 1 | .fileRead => 2 | .fileWrite => 3 | .fileWriteStr => 4
  | .fileFlush => 5 | .fileSeek => 6 | .fileSize => 7 | .fileExists => 8 | .fileDelete => 9
  | .fileCopy => 10 | .fileMove => 11 | .dirCreate => 20 | .dirCreateAll => 21 | .dirDelete => 22
  | .dirList => 23 | .dirExists => 24 | .isDir => 25 | .isFile => 26 | .pathAbsolute => 30
  | .consoleReadLine => 40 | .consoleWrite => 41 | .consoleWriteErr => 42

def HostIoOp.fromU8 (v : UInt8) : Option HostIoOp :=
  match v.toNat with
  | 0 => some .fileOpen | 1 => some .fileClose | 2 => some .fileRead | 3 => some .fileWrite
  | 4 => some .fileWriteStr | 5 => some .fileFlush | 6 => some .fileSeek | 7 => some .fileSize
  | 8 => some .fileExists | 9 => some .fileDelete | 10 => some .fileCopy | 11 => some .fileMove
  | 20 => some .dirCreate | 21 => some .dirCreateAll | 22 => some .dirDelete
  | 23 => some .dirList | 24 => some .dirExists | 25 => some .isDir | 26 => some .isFile
  | 30 => some .pathAbsolute | 40 => some .consoleReadLine | 41 => some .consoleWrite
  | 42 => some .consoleWriteErr | _ => none

theorem HostIoOp.fromU8_toU8 (o : HostIoOp) : fromU8 o.toU8 = some o := by
  cases o <;> rfl

/-- Host networking operations for HTTP, WebSocket, and SSE. -/
inductive HostNetOp where
  | httpFetch | httpServe | httpAccept | httpRespond | wsServe | wsAccept | wsSendText
  | wsSendBinary | wsRecv | wsClose | wsIsOpen | sseServe | sseAccept | sseSend | sseClose
  | sseIsOpen
  deriving DecidableEq

def HostNetOp.toU8 : HostNetOp → UInt8
  | .httpFetch => 0 | .httpServe => 1 | .httpAccept => 2 | .httpRespond => 3 | .wsServe => 10
  | .wsAccept => 11 | .wsSendText => 12 | .wsSendBinary => 13 | .wsRecv => 14 | .wsClose => 15
  | .wsIsOpen => 16 | .sseServe => 20 | .sseAccept => 21 | .sseSend => 22 | .sseClose => 23
  | .sseIsOpen => 24

def HostNetOp.fromU8 (v : UInt8) : Option HostNetOp :=
  match v.toNat with
  | 0 => some .httpFetch | 1 => some .httpServe | 2 => some .httpAccept | 3 => some .httpRespond
  | 10 => some .wsServe | 11 => some .wsAccept | 12 => some .wsSendText
  | 13 => some .wsSendBinary | 14 => some .wsRecv | 15 => some .wsClose | 16 => some .wsIsOpen
  | 20 => some .sseServe | 21 => some .sseAccept | 22 => some .sseSend | 23 => some .sseClose
  | 24 => some .sseIsOpen | _ => none

theorem HostNetOp.fromU8_toU8 (o : HostNetOp) : fromU8 o.toU8 = some o := by
  cases o <;> rfl

/-- Host time operations for wall-clock, monotonic clock, and timers. -/
inductive HostTimeOp where
  | dateTimeNow | dateTimeParse | dateTimeFormat | instantNow | instantElapsed | sleep
  deriving DecidableEq

def HostTimeOp.toU8 : HostTimeOp → UInt8
  | .dateTimeNow => 0 | .dateTimeParse => 1 | .dateTimeFormat => 2 | .instantNow => 10
  | .instantElapsed => 11 | .sleep => 20

def HostTimeOp.fromU8 (v : UInt8) : Option HostTimeOp :=
  match v.toNat with
  | 0 => some .dateTimeNow | 1 => some .dateTimeParse | 2 => some .dateTimeFormat
  | 10 => some .instantNow | 11 => some .instantElapsed | 20 => some .sleep | _ => none

theorem HostTimeOp.fromU8_toU8 (o : HostTimeOp) : fromU8 o.toU8 = some o := by
  cases o <;> rfl

/-- Host database operations for SQLite and PostgreSQL. -/
inductive HostDbOp where
  | sqliteOpen | sqliteClose | sqlitePrepare | sqliteStep | sqliteFinalize | sqliteReset
  | sqliteBindInt | sqliteBindInt64 | sqliteBindDouble | sqliteBindText | sqliteBindBlob
  | sqliteBindNull | sqliteColumnInt | sqliteColumnInt64 | sqliteColumnDouble | sqliteColumnText
  | sqliteColumnBlob | sqliteColumnType | sqliteColumnCount | sqliteColumnName | sqliteIsNull
  | sqliteChanges | sqliteLastInsertRowid | sqliteErrmsg | sqliteBegin | sqliteCommit
  | sqliteRollback | sqliteSavepoint | sqliteReleaseSavepoint | sqliteRollbackToSavepoint
  | sqliteQuery | sqliteExecute | pgConnect | pgDisconnect | pgStatus | pgQuery | pgExecute
  | pgPrepare | pgExecutePrepared | pgRowCount | pgColumnCount | pgColumnName | pgColumnType
  | pgGetValue | pgGetInt | pgGetInt64 | pgGetDouble | pgGetText | pgGetBytes | pgGetBool
  | pgIsNull | pgAffectedRows | pgBegin | pgCommit | pgRollback | pgSavepoint
  | pgReleaseSavepoint | pgRollbackToSavepoint | pgErrmsg | pgEscape | pgFreeResult
  | pgConnectAsync | pgDisconnectAsync | pgStatusAsync | pgQueryAsync | pgExecuteAsync
  | pgPrepareAsync | pgExecutePreparedAsync | pgIsReady | pgGetAsyncResult | pgCancelAsync
  | pgBeginAsync | pgCommitAsync | pgRollbackAsync | sqlitePoolCreate | sqlitePoolClose
  | sqlitePoolAcquire | sqlitePoolRelease | sqlitePoolStats | pgPoolCreate | pgPoolClose
  | pgPoolAcquire | pgPoolRelease | pgPoolStats | sqliteTxScopeBegin | sqliteTxScopeEnd
  | sqliteTxDepth | sqliteTxActive | pgTxScopeBegin | pgTxScopeEnd | pgTxDepth | pgTxActive
  deriving DecidableEq

def HostDbOp.toU8 : HostDbOp → UInt8
  | .sqliteOpen => 0 | .sqliteClose => 1 | .sqlitePrepare => 10 | .sqliteStep => 11
  | .sqliteFinalize => 12 | .sqliteReset => 13 | .sqliteBindInt => 20 | .sqliteBindInt64 => 21
  | .sqliteBindDouble => 22 | .sqliteBindText => 23 | .sqliteBindBlob => 24
  | .sqliteBindNull => 25 | .sqliteColumnInt => 30 | .sqliteColumnInt64 => 31
  | .sqliteColumnDouble => 32 | .sqliteColumnText => 33 | .sqliteColumnBlob => 34
  | .sqliteColumnType => 35 | .sqliteColumnCount => 36 | .sqliteColumnName => 37
  | .sqliteIsNull => 38 | .sqliteChanges => 40 | .sqliteLastInsertRowid => 41
  | .sqliteErrmsg => 42 | .sqliteBegin => 50 | .sqliteCommit => 51 | .sqliteRollback => 52
  | .sqliteSavepoint => 53 | .sqliteReleaseSavepoint => 54 | .sqliteRollbackToSavepoint => 55
  | .sqliteQuery => 60 | .sqliteExecute => 61 | .pgConnect => 100 | .pgDisconnect => 101
  | .pgStatus => 102 | .pgQuery => 110 | .pgExecute => 111 | .pgPrepare => 112
  | .pgExecutePrepared => 113 | .pgRowCount => 120 | .pgColumnCount => 121 | .pgColumnName => 122
  | .pgColumnType => 123 | .pgGetValue => 124 | .pgGetInt => 125 | .pgGetInt64 => 126
  | .pgGetDouble => 127 | .pgGetText => 128 | .pgGetBytes => 129 | .pgGetBool => 130
  | .pgIsNull => 131 | .pgAffectedRows => 132 | .pgBegin => 140 | .pgCommit => 141
  | .pgRollback => 142 | .pgSavepoint => 143 | .pgReleaseSavepoint => 144
  | .pgRollbackToSavepoint => 145 | .pgErrmsg => 150 | .pgEscape => 151 | .pgFreeResult => 152
  | .pgConnectAsync => 160 | .pgDisconnectAsync => 161 | .pgStatusAsync => 162
  | .pgQueryAsync => 165 | .pgExecuteAsync => 166 | .pgPrepareAsync => 167
  | .pgExecutePreparedAsync => 168 | .pgIsReady => 175 | .pgGetAsyncResult => 176
  | .pgCancelAsync => 177 | .pgBeginAsync => 180 | .pgCommitAsync => 181
  | .pgRollbackAsync => 182 | .sqlitePoolCreate => 190 | .sqlitePoolClose => 191
  | .sqlitePoolAcquire => 192 | .sqlitePoolRelease => 193 | .sqlitePoolStats => 194
  | .pgPoolCreate => 200 | .pgPoolClose => 201 | .pgPoolAcquire => 202 | .pgPoolRelease => 203
  | .pgPoolStats => 204 | .sqliteTxScopeBegin => 210 | .sqliteTxScopeEnd => 211
  | .sqliteTxDepth => 212 | .sqliteTxActive => 213 | .pgTxScopeBegin => 220
  | .pgTxScopeEnd => 221 | .pgTxDepth => 222 | .pgTxActive => 223

def HostDbOp.fromU8 (v : UInt8) : Option HostDbOp :=
  match v.toNat with
  | 0 => some .sqliteOpen | 1 => some .sqliteClose | 10 => some .sqlitePrepare
  | 11 => some .sqliteStep | 12 => some .sqliteFinalize | 13 => some .sqliteReset
  | 20 => some .sqliteBindInt | 21 => some .sqliteBindInt64 | 22 => some .sqliteBindDouble
  | 23 => some .sqliteBindText | 24 => some .sqliteBindBlob | 25 => some .sqliteBindNull
  | 30 => some .sqliteColumnInt | 31 => some .sqliteColumnInt64 | 32 => some .sqliteColumnDouble
  | 33 => some .sqliteColumnText | 34 => some .sqliteColumnBlob | 35 => some .sqliteColumnType
  | 36 => some .sqliteColumnCount | 37 => some .sqliteColumnName | 38 => some .sqliteIsNull
  | 40 => some .sqliteChanges | 41 => some .sqliteLastInsertRowid | 42 => some .sqliteErrmsg
  | 50 => some .sqliteBegin | 51 => some .sqliteCommit | 52 => some .sqliteRollback
  | 53 => some .sqliteSavepoint | 54 => some .sqliteReleaseSavepoint
  | 55 => some .sqliteRollbackToSavepoint | 60 => some .sqliteQuery | 61 => some .sqliteExecute
  | 100 => some .pgConnect | 101 => some .pgDisconnect | 102 => some .pgStatus
  | 110 => some .pgQuery | 111 => some .pgExecute | 112 => some .pgPrepare
  | 113 => some .pgExecutePrepared | 120 => some .pgRowCount | 121 => some .pgColumnCount
  | 122 => some .pgColumnName | 123 => some .pgColumnType | 124 => some .pgGetValue
  | 125 => some .pgGetInt | 126 => some .pgGetInt64 | 127 => some .pgGetDouble
  | 128 => some .pgGetText | 129 => some .pgGetBytes | 130 => some .pgGetBool
  | 131 => some .pgIsNull | 132 => some .pgAffectedRows | 140 => some .pgBegin
  | 141 => some .pgCommit | 142 => some .pgRollback | 143 => some .pgSavepoint
  | 144 => some .pgReleaseSavepoint | 145 => some .pgRollbackToSavepoint | 150 => some .pgErrmsg
  | 151 => some .pgEscape | 152 => some .pgFreeResult | 160 => some .pgConnectAsync
  | 161 => some .pgDisconnectAsync | 162 => some .pgStatusAsync | 165 => some .pgQueryAsync
  | 166 => some .pgExecuteAsync | 167 => some .pgPrepareAsync
  | 168 => some .pgExecutePreparedAsync | 175 => some .pgIsReady | 176 => some .pgGetAsyncResult
  | 177 => some .pgCancelAsync | 180 => some .pgBeginAsync | 181 => some .pgCommitAsync
  | 182 => some .pgRollbackAsync | 190 => some .sqlitePoolCreate | 191 => some .sqlitePoolClose
  | 192 => some .sqlitePoolAcquire | 193 => some .sqlitePoolRelease
  | 194 => some .sqlitePoolStats | 200 => some .pgPoolCreate | 201 => some .pgPoolClose
  | 202 => some .pgPoolAcquire | 203 => some .pgPoolRelease | 204 => some .pgPoolStats
  | 210 => some .sqliteTxScopeBegin | 211 => some .sqliteTxScopeEnd | 212 => some .sqliteTxDepth
  | 213 => some .sqliteTxActive | 220 => some .pgTxScopeBegin | 221 => some .pgTxScopeEnd
  | 222 => some .pgTxDepth | 223 => some .pgTxActive | _ => none

theorem HostDbOp.fromU8_toU8 (o : HostDbOp) : fromU8 o.toU8 = some o := by
  cases o <;> rfl

/-- Host mail operations for SMTP, IMAP, and POP3. -/
inductive HostMailOp where
  | smtpConnect | smtpStartTls | smtpAuth | smtpEhlo | smtpQuit | smtpNoop | smtpReset
  | smtpMailFrom | smtpRcptTo | smtpData | smtpSendData | smtpEndData | smtpReadResponse
  | smtpGetResponseCode | smtpGetResponseMessage | smtpGetCapabilities | smtpSendMessage
  | smtpVerify | smtpExpand | imapConnect | imapStartTls | imapAuth | imapAuthOAuth | imapLogout
  | imapNoop | imapCapability | imapSelect | imapExamine | imapCreate | imapDelete | imapRename
  | imapSubscribe | imapUnsubscribe | imapList | imapLsub | imapStatus | imapFetch | imapStore
  | imapCopy | imapMove | imapExpunge | imapSearch | imapAppend | imapIdle | imapIdleDone
  | imapIdlePoll | pop3Connect | pop3StartTls | pop3Auth | pop3AuthApop | pop3Quit | pop3Noop
  | pop3Stat | pop3List | pop3Uidl | pop3Retr | pop3Dele | pop3Reset | pop3Top | mimeBase64Encode
  | mimeBase64Decode | mimeQuotedPrintableEncode | mimeQuotedPrintableDecode | mimeEncodeHeader
  | mimeDecodeHeader | mimeMessageNew | mimeMessageSetHeader | mimeMessageSetBody
  | mimeMessageAddAttachment | mimeMessageAddInline | mimeMessageBuildMultipart
  | mimeMessageSerialize | mimeMessageParse | mimeMessageGetHeader | mimeMessageGetBody
  | mimeMessageGetAttachments | mimeMessageGetAllHeaders | tlsContextNew | tlsUpgrade
  | tlsHandshake | tlsRead | tlsWrite | tlsClose | tlsSetCert | tlsSetVerify
  deriving DecidableEq

def HostMailOp.toU8 : HostMailOp → UInt8
  | .smtpConnect => 0 | .smtpStartTls => 1 | .smtpAuth => 2 | .smtpEhlo => 3 | .smtpQuit => 4
  | .smtpNoop => 5 | .smtpReset => 6 | .smtpMailFrom => 10 | .smtpRcptTo => 11 | .smtpData => 12
  | .smtpSendData => 13 | .smtpEndData => 14 | .smtpReadResponse => 20
  | .smtpGetResponseCode => 21 | .smtpGetResponseMessage => 22 | .smtpGetCapabilities => 23
  | .smtpSendMessage => 30 | .smtpVerify => 31 | .smtpExpand => 32 | .imapConnect => 50
  | .imapStartTls => 51 | .imapAuth => 52 | .imapAuthOAuth => 53 | .imapLogout => 54
  | .imapNoop => 55 | .imapCapability => 56 | .imapSelect => 60 | .imapExamine => 61
  | .imapCreate => 62 | .imapDelete => 63 | .imapRename => 64 | .imapSubscribe => 65
  | .imapUnsubscribe => 66 | .imapList => 67 | .imapLsub => 68 | .imapStatus => 69
  | .imapFetch => 70 | .imapStore => 71 | .imapCopy => 72 | .imapMove => 73 | .imapExpunge => 74
  | .imapSearch => 75 | .imapAppend => 76 | .imapIdle => 80 | .imapIdleDone => 81
  | .imapIdlePoll => 82 | .pop3Connect => 100 | .pop3StartTls => 101 | .pop3Auth => 102
  | .pop3AuthApop => 103 | .pop3Quit => 104 | .pop3Noop => 105 | .pop3Stat => 110
  | .pop3List => 111 | .pop3Uidl => 112 | .pop3Retr => 113 | .pop3Dele => 114 | .pop3Reset => 115
  | .pop3Top => 116 | .mimeBase64Encode => 150 | .mimeBase64Decode => 151
  | .mimeQuotedPrintableEncode => 152 | .mimeQuotedPrintableDecode => 153
  | .mimeEncodeHeader => 154 | .mimeDecodeHeader => 155 | .mimeMessageNew => 160
  | .mimeMessageSetHeader => 161 | .mimeMessageSetBody => 162 | .mimeMessageAddAttachment => 163
  | .mimeMessageAddInline => 164 | .mimeMessageBuildMultipart => 165
  | .mimeMessageSerialize => 166 | .mimeMessageParse => 170 | .mimeMessageGetHeader => 171
  | .mimeMessageGetBody => 172 | .mimeMessageGetAttachments => 173
  | .mimeMessageGetAllHeaders => 174 | .tlsContextNew => 180 | .tlsUpgrade => 181
  | .tlsHandshake => 182 | .tlsRead => 183 | .tlsWrite => 184 | .tlsClose => 185
  | .tlsSetCert => 186 | .tlsSetVerify => 187

def HostMailOp.fromU8 (v : UInt8) : Option HostMailOp :=
  match v.toNat with
  | 0 => some .smtpConnect | 1 => some .smtpStartTls | 2 => some .smtpAuth | 3 => some .smtpEhlo
  | 4 => some .smtpQuit | 5 => some .smtpNoop | 6 => some .smtpReset | 10 => some .smtpMailFrom
  | 11 => some .smtpRcptTo | 12 => some .smtpData | 13 => some .smtpSendData
  | 14 => some .smtpEndData | 20 => some .smtpReadResponse | 21 => some .smtpGetResponseCode
  | 22 => some .smtpGetResponseMessage | 23 => some .smtpGetCapabilities
  | 30 => some .smtpSendMessage | 31 => some .smtpVerify | 32 => some .smtpExpand
  | 50 => some .imapConnect | 51 => some .imapStartTls | 52 => some .imapAuth
  | 53 => some .imapAuthOAuth | 54 => some .imapLogout | 55 => some .imapNoop
  | 56 => some .imapCapability | 60 => some .imapSelect | 61 => some .imapExamine
  | 62 => some .imapCreate | 63 => some .imapDelete | 64 => some .imapRename
  | 65 => some .imapSubscribe | 66 => some .imapUnsubscribe | 67 => some .imapList
  | 68 => some .imapLsub | 69 => some .imapStatus | 70 => some .imapFetch | 71 => some .imapStore
  | 72 => some .imapCopy | 73 => some .imapMove | 74 => some .imapExpunge
  | 75 => some .imapSearch | 76 => some .imapAppend | 80 => some .imapIdle
  | 81 => some .imapIdleDone | 82 => some .imapIdlePoll | 100 => some .pop3Connect
  | 101 => some .pop3StartTls | 102 => some .pop3Auth | 103 => some .pop3AuthApop
  | 104 => some .pop3Quit | 105 => some .pop3Noop | 110 => some .pop3Stat | 111 => some .pop3List
  | 112 => some .pop3Uidl | 113 => some .pop3Retr | 114 => some .pop3Dele
  | 115 => some .pop3Reset | 116 => some .pop3Top | 150 => some .mimeBase64Encode
  | 151 => some .mimeBase64Decode | 152 => some .mimeQuotedPrintableEncode
  | 153 => some .mimeQuotedPrintableDecode | 154 => some .mimeEncodeHeader
  | 155 => some .mimeDecodeHeader | 160 => some .mimeMessageNew
  | 161 => some .mimeMessageSetHeader | 162 => some .mimeMessageSetBody
  | 163 => some .mimeMessageAddAttachment | 164 => some .mimeMessageAddInline
  | 165 => some .mimeMessageBuildMultipart | 166 => some .mimeMessageSerialize
  | 170 => some .mimeMessageParse | 171 => some .mimeMessageGetHeader
  | 172 => some .mimeMessageGetBody | 173 => some .mimeMessageGetAttachments
  | 174 => some .mimeMessageGetAllHeaders | 180 => some .tlsContextNew | 181 => some .tlsUpgrade
  | 182 => some .tlsHandshake | 183 => some .tlsRead | 184 => some .tlsWrite
  | 185 => some .tlsClose | 186 => some .tlsSetCert | 187 => some .tlsSetVerify | _ => none

theorem HostMailOp.fromU8_toU8 (o : HostMailOp) : fromU8 o.toU8 = some o := by
  cases o <;> rfl

/-- Host cryptographic operations.  These operations provide access to cryptographic primitives including: - Secure memory allocation - Hash functions (SHA-256, SHA-512, SHA3, BLAKE3) - HMAC - AEAD encryption (AES-GCM, ChaCha20-Poly1305) - Digital signatures (Ed25519, ECDSA, RSA-PSS) - Key exchange (X25519, ECDH) - Key derivation (HKDF, PBKDF2, Argon2) - Password hashing (bcrypt, Argon2) - Secure random number generation - Base64/hex encoding -/
inductive HostCryptoOp where
  | secureAlloc | secureFree | securePtr | secureLen | secureWrite | secureRead | secureZero
  | secureCompare | hash | hasherNew | hasherUpdate | hasherFinalize | hmac | hmacNew
  | hmacUpdate | hmacFinalize | hmacVerify | aeadGenerateNonce | aeadEncrypt | aeadDecrypt
  | signatureGenerateKeypair | signatureDerivePublicKey | signatureSign | signatureVerify
  | signatureSignHash | signatureVerifyHash | kexGenerateKeypair | kexAgree | kexAgreeWithKdf
  | kdfHkdf | kdfPbkdf2 | kdfArgon2 | passwordHashBcrypt | passwordHashArgon2 | passwordVerify
  | randomBytes | randomSalt | encodingToHex | encodingFromHex | encodingToBase64
  | encodingFromBase64 | encodingToBase64Url | encodingFromBase64Url | nonceTrackingEnable
  | nonceCheck | nonceMarkUsed | nonceCheckAndMark | nonceClear
  deriving DecidableEq

def HostCryptoOp.toU8 : HostCryptoOp → UInt8
  | .secureAlloc => 0 | .secureFree => 1 | .securePtr => 2 | .secureLen => 3 | .secureWrite => 4
  | .secureRead => 5 | .secureZero => 6 | .secureCompare => 7 | .hash => 10 | .hasherNew => 11
  | .hasherUpdate => 12 | .hasherFinalize => 13 | .hmac => 20 | .hmacNew => 21
  | .hmacUpdate => 22 | .hmacFinalize => 23 | .hmacVerify => 24 | .aeadGenerateNonce => 30
  | .aeadEncrypt => 31 | .aeadDecrypt => 32 | .signatureGenerateKeypair => 40
  | .signatureDerivePublicKey => 41 | .signatureSign => 42 | .signatureVerify => 43
  | .signatureSignHash => 44 | .signatureVerifyHash => 45 | .kexGenerateKeypair => 50
  | .kexAgree => 51 | .kexAgreeWithKdf => 52 | .kdfHkdf => 60 | .kdfPbkdf2 => 61
  | .kdfArgon2 => 62 | .passwordHashBcrypt => 70 | .passwordHashArgon2 => 71
  | .passwordVerify => 72 | .randomBytes => 80 | .randomSalt => 81 | .encodingToHex => 90
  | .encodingFromHex => 91 | .encodingToBase64 => 92 | .encodingFromBase64 => 93
  | .encodingToBase64Url => 94 | .encodingFromBase64Url => 95 | .nonceTrackingEnable => 100
  | .nonceCheck => 101 | .nonceMarkUsed => 102 | .nonceCheckAndMark => 103 | .nonceClear => 104

def HostCryptoOp.fromU8 (v : UInt8) : Option HostCryptoOp :=
  match v.toNat with
  | 0 => some .secureAlloc | 1 => some .secureFree | 2 => some .securePtr | 3 => some .secureLen
  | 4 => some .secureWrite | 5 => some .secureRead | 6 => some .secureZero
  | 7 => some .secureCompare | 10 => some .hash | 11 => some .hasherNew
  | 12 => some .hasherUpdate | 13 => some .hasherFinalize | 20 => some .hmac
  | 21 => some .hmacNew | 22 => some .hmacUpdate | 23 => some .hmacFinalize
  | 24 => some .hmacVerify | 30 => some .aeadGenerateNonce | 31 => some .aeadEncrypt
  | 32 => some .aeadDecrypt | 40 => some .signatureGenerateKeypair
  | 41 => some .signatureDerivePublicKey | 42 => some .signatureSign
  | 43 => some .signatureVerify | 44 => some .signatureSignHash | 45 => some .signatureVerifyHash
  | 50 => some .kexGenerateKeypair | 51 => some .kexAgree | 52 => some .kexAgreeWithKdf
  | 60 => some .kdfHkdf | 61 => some .kdfPbkdf2 | 62 => some .kdfArgon2
  | 70 => some .passwordHashBcrypt | 71 => some .passwordHashArgon2 | 72 => some .passwordVerify
  | 80 => some .randomBytes | 81 => some .randomSalt | 90 => some .encodingToHex
  | 91 => some .encodingFromHex | 92 => some .encodingToBase64 | 93 => some .encodingFromBase64
  | 94 => some .encodingToBase64Url | 95 => some .encodingFromBase64Url
  | 100 => some .nonceTrackingEnable | 101 => some .nonceCheck | 102 => some .nonceMarkUsed
  | 103 => some .nonceCheckAndMark | 104 => some .nonceClear | _ => none

theorem HostCryptoOp.fromU8_toU8 (o : HostCryptoOp) : fromU8 o.toU8 = some o := by
  cases o <;> rfl

/-- An `f64` is carried as its bit pattern. -/
structure F64 where
  bits : UInt64
  deriving DecidableEq

/-- The instructions, in the order of `pub enum Op`. -/
inductive Op where
  | print (ix : UInt32) | printStrVal (ix : UInt32) | printRaw (ix : UInt32)
  | printRawStrVal (ix : UInt32) | printLn | halt | pushI64 (n : Int64) | pushF64 (x : F64)
  | pushBool (b : UInt8) | pushStr (ix : UInt32) | addI64 | subI64 | mulI64 | divI64 | modI64
  | ltI64 | eqI64 | eqStr | concatStr | shlI64 | shrI64 | andI64 | orI64 | xorI64
  | jump (tgt : UInt32) | jumpIfFalse (tgt : UInt32) | call (tgt : UInt32)
  | callSymbol (sym : UInt32)
  | externCall (sym : UInt32) (argc : UInt8) (floatMask : UInt32) (retKind : UInt8) | ret | pop
  | printTop | localGet (ix : UInt32) | localSet (ix : UInt32) | toF64 | toI64 | toI64OrEnumTag
  | toBool | toChar | toI8 | toI16 | toI32 | toU8 | toU16 | toU32 | toU64 | toF32 | sqrtF64
  | powF64 | sinF64 | cosF64 | tanF64 | floorF64 | ceilF64 | roundF64 | listNew | listPush
  | listGet | listSet | listLen | listRemove | listSort | mapNew | mapPut | mapGet | mapLen
  | mapContainsKey | mapRemove | mapKeys | mapMerge | strLen | strSubstring | strIndexOf
  | strLastIndexOf | strStartsWith | strEndsWith | strSplit | strTrim | strToLower | strToUpper
  | strReplace | strCharAt | strContains | strRepeat | strParseInt | strParseFloat | strFromInt
  | strFromFloat | optSome | optNone | optIsSome | optUnwrap | optOrElse | structNew | structSet
  | structGet | structGetNamed | structSetNamed | structCopy | structTypeName | structFieldCount
  | enumNew | enumSetPayload | enumGetPayload | enumGetTag | enumGetVariant | enumTypeName
  | jsonStringify | jsonParse | structToJson | jsonToStruct | jsonGetField | jsonGetIndex
  | jsonGetString | jsonGetNumber | jsonGetBool | jsonIsNull | jsonIsObject | jsonIsArray
  | jsonArrayLen | jsonKeys | htmlParse | htmlParseFragment | htmlStringify | htmlStringifyPretty
  | htmlFree | htmlNodeType | htmlTagName | htmlTextContent | htmlInnerHtml | htmlOuterHtml
  | htmlGetAttr | htmlHasAttr | htmlAttrNames | htmlParent | htmlChildren | htmlElementChildren
  | htmlFirstChild | htmlLastChild | htmlNextSibling | htmlPrevSibling | htmlQuerySelector
  | htmlQuerySelectorAll | htmlGetById | htmlGetByTag | htmlGetByClass | htmlHasClass
  | templateCompile | templateCompileFile | templateRender | templateRegisterPartial
  | templateGetPartial | templateUnregisterPartial | templateFree | templateEscapeHtml
  | templateUnescapeHtml | sharedNew | sharedStore | sharedLoad | sharedGetByName (ix : UInt32)
  | closureNew (funcId : UInt32) (numCaptures : UInt32) | closureCapture
  | closureCall (numArgs : UInt32) | rcAlloc | rcInc | rcDec
  | rcDecWithDeinit (funcOffset : UInt32) | rcLoad | rcStore | rcGetCount
  | regionEnter (regionId : UInt32) | regionExit (regionId : UInt32) | panic (msgIdx : UInt32)
  | setUnwindHandler (handlerIp : UInt32) | clearUnwindHandler | getPanicMessage | throw
  | getException | bigDecimalNew | bigDecimalFromInt | bigDecimalFromFloat | bigDecimalAdd
  | bigDecimalSub | bigDecimalMul | bigDecimalDiv | bigDecimalRem | bigDecimalPow
  | bigDecimalNegate | bigDecimalCompare | bigDecimalToString | bigDecimalToInt
  | bigDecimalToFloat | bigDecimalScale | bigDecimalSetScale | bigDecimalRound | bigIntNew
  | bigIntFromInt | bigIntAdd | bigIntSub | bigIntMul | bigIntDiv | bigIntRem | bigIntPow
  | bigIntNegate | bigIntCompare | bigIntToString | bigIntToInt | hostCallIo (op : HostIoOp)
  | hostCallNet (op : HostNetOp) | hostCallTime (op : HostTimeOp) | hostCallDb (op : HostDbOp)
  | hostCallMail (op : HostMailOp) | hostCallCrypto (op : HostCryptoOp) | hostCallGeneric
  | taskSpawn | taskPushArg | taskAwait | taskRunBody (funcOffset : UInt32) | executorInit
  | executorThreadCount | executorActiveWorkers | executorSpawn | executorJoin
  | executorSpawnWithArg | executorActiveExecutorCount | executorWorkerTaskCount
  | executorResetStats | executorSpawnAwait | mpmcChanCreate | mpmcChanSend
  | mpmcChanSendBlocking | mpmcChanRecv | mpmcChanRecvBlocking | mpmcChanClose | mpmcChanLen
  | mpmcChanIsEmpty | mpmcChanIsFull | mpmcChanIsClosed | mpmcChanCapacity | mpmcChanSendWithTask
  | mpmcChanRecvWithTask | mpmcChanRecvAndWake | mpmcChanPopWaitingSender
  | mpmcChanGetWaitingSenderValue | mpmcChanPopWaitingReceiver | mpmcChanWaitingSenderCount
  | mpmcChanWaitingReceiverCount | mpmcChanGetWokenSender | mpmcChanSendAndWake
  | mpmcChanGetWokenReceiver | mpmcChanSelectClear | mpmcChanSelectAdd | mpmcChanSelectCount
  | mpmcChanTrySelectRecv | mpmcChanSelectRecvBlocking | mpmcChanSelectRecvWithTask
  | mpmcChanSelectGetReadyIndex | mpmcChanSelectGetValue | mpmcChanSelectDeregister
  | mpmcChanSelectGetHandle | actorCreate | actorSpawn | actorSend | actorSendBlocking
  | actorRecv | actorRecvBlocking | actorClose | actorStop | actorGetTask | actorGetMailbox
  | actorIsRunning | actorGetState | actorMessageCount | actorMailboxEmpty | actorMailboxLen
  | actorSetTask | actorMarkStopped | actorMarkFailed | actorIsFailed | atomicCreate | atomicLoad
  | atomicStore | atomicCas | atomicFetchAdd | atomicFetchSub | atomicSwap | atomicGet
  | atomicSet | atomicInc | atomicDec | eventLoopCreate | eventLoopRegisterTimer
  | eventLoopRegisterFd | eventLoopDeregister | eventLoopPoll | eventLoopGetEvent
  | eventLoopGetEventType | eventLoopClose | eventLoopPipeCreate | eventLoopPipeGetWriteFd
  | eventLoopPipeWrite | eventLoopPipeRead | eventLoopPipeClose | timerSleep | timerSleepAsync
  | timerCheckExpired | timerGetWaitingTask | timerCancel | timerPollExpired | timerNow
  | timerElapsed | timerRemove | timerRemaining | tcpListenerBind | tcpListenerAccept
  | tcpListenerAcceptAsync | tcpListenerClose | tcpListenerLocalPort | tcpStreamConnect
  | tcpStreamConnectAsync | tcpStreamRead | tcpStreamReadAsync | tcpStreamWrite
  | tcpStreamWriteAsync | tcpStreamClose | tcpStreamGetLastRead | tcpStreamSetTimeout
  | tcpCheckReady | tcpGetResult | tcpPollReady | tcpRemoveRequest | httpGet | httpPost
  | httpGetAsync | httpPostAsync | httpResponseStatus | httpResponseHeader | httpResponseBody
  | httpResponseClose | httpCheckReady | httpGetResult | httpPollReady | httpRemoveRequest
  | httpGetBodyLength | httpGetHeaderCount | httpServerCreate | httpServerClose
  | httpServerGetPort | httpServerAccept | httpServerAcceptAsync | httpRequestMethod
  | httpRequestPath | httpRequestHeader | httpRequestBody | httpRequestHeaderCount
  | httpRequestBodyLength | httpWriterStatus | httpWriterHeader | httpWriterBody | httpWriterSend
  | httpWriterSendAsync | httpServerCheckReady | httpServerGetResult | httpServerPollReady
  | httpServerRemoveRequest
  deriving DecidableEq

end Arth
