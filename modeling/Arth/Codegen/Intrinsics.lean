import Arth.Ir.Syntax

/-!
# Intrinsic calls

The calls `compile_ir_to_program` turns into instructions of their own, by name and number
of arguments. `plainIntrinsics` has those that push their arguments from left to right,
run one instruction and store its result; `otherIntrinsics` spells out the rest.
-/

namespace Arth.Codegen

/-- One step of an intrinsic: push argument `i`, push the string constant behind it or its
index in the string table, emit an instruction (counted on to take and leave so many
values), store into the result's local. -/
inductive IntrinsicStep where
  | arg (i : Nat)
  | text (i : Nat)
  | textIx (i : Nat)
  | op (o : Op)
  | run (o : Op) (taken left : Nat)
  | set
  deriving DecidableEq

def plainIntrinsics : List (String × Nat × Op) := [
  ("__arth_cast_f64", 1, .toF64), ("__arth_cast_i64", 1, .toI64OrEnumTag),
  ("__arth_cast_bool", 1, .toBool), ("__arth_cast_char", 1, .toChar), ("__arth_cast_i8", 1, .toI8),
  ("__arth_cast_i16", 1, .toI16), ("__arth_cast_i32", 1, .toI32), ("__arth_cast_u8", 1, .toU8),
  ("__arth_cast_u16", 1, .toU16), ("__arth_cast_u32", 1, .toU32), ("__arth_cast_u64", 1, .toU64),
  ("__arth_cast_f32", 1, .toF32), ("__arth_shared_new", 0, .sharedNew),
  ("__arth_shared_store", 2, .sharedStore), ("__arth_shared_load", 1, .sharedLoad),
  ("__arth_executor_init", 1, .executorInit),
  ("__arth_executor_thread_count", 0, .executorThreadCount),
  ("__arth_executor_active_workers", 0, .executorActiveWorkers),
  ("__arth_executor_spawn", 1, .executorSpawn), ("__arth_executor_join", 1, .executorJoin),
  ("__arth_executor_spawn_with_arg", 2, .executorSpawnWithArg),
  ("__arth_executor_active_executor_count", 0, .executorActiveExecutorCount),
  ("__arth_executor_worker_task_count", 1, .executorWorkerTaskCount),
  ("__arth_executor_reset_stats", 0, .executorResetStats),
  ("__arth_executor_spawn_await", 3, .executorSpawnAwait),
  ("__arth_mpmc_chan_create", 1, .mpmcChanCreate), ("__arth_mpmc_chan_send", 2, .mpmcChanSend),
  ("__arth_mpmc_chan_send_blocking", 2, .mpmcChanSendBlocking),
  ("__arth_mpmc_chan_recv", 1, .mpmcChanRecv),
  ("__arth_mpmc_chan_recv_blocking", 1, .mpmcChanRecvBlocking),
  ("__arth_mpmc_chan_close", 1, .mpmcChanClose), ("__arth_mpmc_chan_len", 1, .mpmcChanLen),
  ("__arth_mpmc_chan_is_empty", 1, .mpmcChanIsEmpty),
  ("__arth_mpmc_chan_is_full", 1, .mpmcChanIsFull),
  ("__arth_mpmc_chan_is_closed", 1, .mpmcChanIsClosed),
  ("__arth_mpmc_chan_capacity", 1, .mpmcChanCapacity),
  ("__arth_mpmc_chan_send_with_task", 3, .mpmcChanSendWithTask),
  ("__arth_mpmc_chan_recv_with_task", 2, .mpmcChanRecvWithTask),
  ("__arth_mpmc_chan_recv_and_wake", 1, .mpmcChanRecvAndWake),
  ("__arth_mpmc_chan_pop_waiting_sender", 1, .mpmcChanPopWaitingSender),
  ("__arth_mpmc_chan_get_waiting_sender_value", 0, .mpmcChanGetWaitingSenderValue),
  ("__arth_mpmc_chan_pop_waiting_receiver", 1, .mpmcChanPopWaitingReceiver),
  ("__arth_mpmc_chan_waiting_sender_count", 1, .mpmcChanWaitingSenderCount),
  ("__arth_mpmc_chan_waiting_receiver_count", 1, .mpmcChanWaitingReceiverCount),
  ("__arth_mpmc_chan_get_woken_sender", 0, .mpmcChanGetWokenSender),
  ("__arth_mpmc_chan_send_and_wake", 2, .mpmcChanSendAndWake),
  ("__arth_mpmc_chan_get_woken_receiver", 0, .mpmcChanGetWokenReceiver),
  ("__arth_mpmc_chan_select_add", 1, .mpmcChanSelectAdd),
  ("__arth_mpmc_chan_select_count", 0, .mpmcChanSelectCount),
  ("__arth_mpmc_chan_try_select_recv", 0, .mpmcChanTrySelectRecv),
  ("__arth_mpmc_chan_select_recv_blocking", 0, .mpmcChanSelectRecvBlocking),
  ("__arth_mpmc_chan_select_recv_with_task", 1, .mpmcChanSelectRecvWithTask),
  ("__arth_mpmc_chan_select_get_ready_index", 0, .mpmcChanSelectGetReadyIndex),
  ("__arth_mpmc_chan_select_get_value", 0, .mpmcChanSelectGetValue),
  ("__arth_mpmc_chan_select_get_handle", 1, .mpmcChanSelectGetHandle),
  ("__arth_actor_create", 1, .actorCreate), ("__arth_actor_spawn", 2, .actorSpawn),
  ("__arth_actor_send", 2, .actorSend), ("__arth_actor_send_blocking", 2, .actorSendBlocking),
  ("__arth_actor_recv", 1, .actorRecv), ("__arth_actor_recv_blocking", 1, .actorRecvBlocking),
  ("__arth_actor_close", 1, .actorClose), ("__arth_actor_stop", 1, .actorStop),
  ("__arth_actor_get_task", 1, .actorGetTask), ("__arth_actor_get_mailbox", 1, .actorGetMailbox),
  ("__arth_actor_is_running", 1, .actorIsRunning), ("__arth_actor_get_state", 1, .actorGetState),
  ("__arth_actor_message_count", 1, .actorMessageCount),
  ("__arth_actor_mailbox_empty", 1, .actorMailboxEmpty),
  ("__arth_actor_mailbox_len", 1, .actorMailboxLen), ("__arth_actor_set_task", 2, .actorSetTask),
  ("__arth_actor_mark_stopped", 1, .actorMarkStopped),
  ("__arth_actor_mark_failed", 1, .actorMarkFailed), ("__arth_actor_is_failed", 1, .actorIsFailed),
  ("__arth_atomic_create", 1, .atomicCreate), ("__arth_atomic_load", 1, .atomicLoad),
  ("__arth_atomic_store", 2, .atomicStore), ("__arth_atomic_cas", 3, .atomicCas),
  ("__arth_atomic_fetch_add", 2, .atomicFetchAdd), ("__arth_atomic_fetch_sub", 2, .atomicFetchSub),
  ("__arth_atomic_swap", 2, .atomicSwap), ("__arth_atomic_get", 1, .atomicGet),
  ("__arth_atomic_set", 2, .atomicSet), ("__arth_atomic_inc", 1, .atomicInc),
  ("__arth_atomic_dec", 1, .atomicDec), ("__arth_event_loop_create", 0, .eventLoopCreate),
  ("__arth_event_loop_register_timer", 2, .eventLoopRegisterTimer),
  ("__arth_event_loop_register_fd", 3, .eventLoopRegisterFd),
  ("__arth_event_loop_deregister", 2, .eventLoopDeregister),
  ("__arth_event_loop_poll", 2, .eventLoopPoll),
  ("__arth_event_loop_get_event", 1, .eventLoopGetEvent),
  ("__arth_event_loop_get_event_type", 1, .eventLoopGetEventType),
  ("__arth_event_loop_close", 1, .eventLoopClose),
  ("__arth_event_loop_pipe_create", 0, .eventLoopPipeCreate),
  ("__arth_event_loop_pipe_get_write_fd", 0, .eventLoopPipeGetWriteFd),
  ("__arth_event_loop_pipe_write", 2, .eventLoopPipeWrite),
  ("__arth_event_loop_pipe_read", 1, .eventLoopPipeRead),
  ("__arth_event_loop_pipe_close", 1, .eventLoopPipeClose), ("__arth_timer_sleep", 1, .timerSleep),
  ("__arth_timer_sleep_async", 2, .timerSleepAsync), ("__arth_task_check_cancelled", 0, .pushI64 0),
  ("__arth_timer_check_expired", 1, .timerCheckExpired),
  ("__arth_timer_get_waiting_task", 1, .timerGetWaitingTask),
  ("__arth_timer_cancel", 1, .timerCancel), ("__arth_timer_poll_expired", 0, .timerPollExpired),
  ("__arth_timer_now", 0, .timerNow), ("__arth_timer_elapsed", 1, .timerElapsed),
  ("__arth_timer_remove", 1, .timerRemove), ("__arth_timer_remaining", 1, .timerRemaining),
  ("__arth_tcp_listener_bind", 1, .tcpListenerBind),
  ("__arth_tcp_listener_accept", 1, .tcpListenerAccept),
  ("__arth_tcp_listener_accept_async", 2, .tcpListenerAcceptAsync),
  ("__arth_tcp_listener_close", 1, .tcpListenerClose),
  ("__arth_tcp_listener_local_port", 1, .tcpListenerLocalPort),
  ("__arth_tcp_stream_read", 2, .tcpStreamRead),
  ("__arth_tcp_stream_read_async", 3, .tcpStreamReadAsync),
  ("__arth_tcp_stream_close", 1, .tcpStreamClose),
  ("__arth_tcp_stream_get_last_read_string", 0, .tcpStreamGetLastRead),
  ("__arth_tcp_stream_set_timeout", 2, .tcpStreamSetTimeout),
  ("__arth_tcp_check_ready", 1, .tcpCheckReady), ("__arth_tcp_get_result", 1, .tcpGetResult),
  ("__arth_tcp_poll_ready", 0, .tcpPollReady), ("__arth_tcp_remove_request", 1, .tcpRemoveRequest),
  ("__arth_tcp_get_waiting_task", 1, .tcpGetResult),
  ("__arth_http_response_status", 1, .httpResponseStatus),
  ("__arth_http_response_body", 1, .httpResponseBody),
  ("__arth_http_response_close", 1, .httpResponseClose),
  ("__arth_http_check_ready", 1, .httpCheckReady), ("__arth_http_get_result", 1, .httpGetResult),
  ("__arth_http_poll_ready", 0, .httpPollReady),
  ("__arth_http_remove_request", 1, .httpRemoveRequest),
  ("__arth_http_get_body_length", 1, .httpGetBodyLength),
  ("__arth_http_get_header_count", 1, .httpGetHeaderCount),
  ("__arth_http_get_waiting_task", 1, .httpGetResult),
  ("__arth_http_get_last_header_string", 0, .httpPollReady),
  ("__arth_http_get_last_body_string", 0, .httpPollReady),
  ("__arth_http_server_create", 1, .httpServerCreate),
  ("__arth_http_server_close", 1, .httpServerClose),
  ("__arth_http_server_get_port", 1, .httpServerGetPort),
  ("__arth_http_server_accept", 1, .httpServerAccept),
  ("__arth_http_server_accept_async", 2, .httpServerAcceptAsync),
  ("__arth_http_request_method", 1, .httpRequestMethod),
  ("__arth_http_request_path", 1, .httpRequestPath),
  ("__arth_http_request_body", 1, .httpRequestBody),
  ("__arth_http_request_header_count", 1, .httpRequestHeaderCount),
  ("__arth_http_request_body_length", 1, .httpRequestBodyLength),
  ("__arth_http_writer_status", 2, .httpWriterStatus),
  ("__arth_http_writer_send", 1, .httpWriterSend),
  ("__arth_http_writer_send_async", 2, .httpWriterSendAsync),
  ("__arth_http_server_check_ready", 1, .httpServerCheckReady),
  ("__arth_http_server_get_result", 1, .httpServerGetResult),
  ("__arth_http_server_poll_ready", 0, .httpServerPollReady),
  ("__arth_http_server_remove_request", 1, .httpServerRemoveRequest),
  ("__arth_http_server_get_waiting_task", 1, .httpServerGetResult),
  ("__arth_math_sqrt", 1, .sqrtF64), ("__arth_math_pow", 2, .powF64),
  ("__arth_math_sin", 1, .sinF64), ("__arth_math_cos", 1, .cosF64),
  ("__arth_math_tan", 1, .tanF64), ("__arth_math_floor", 1, .floorF64),
  ("__arth_math_ceil", 1, .ceilF64), ("__arth_math_round", 1, .roundF64),
  ("__arth_list_new", 0, .listNew), ("__arth_list_push", 2, .listPush),
  ("__arth_list_get", 2, .listGet), ("__arth_list_set", 3, .listSet),
  ("__arth_list_len", 1, .listLen), ("__arth_list_remove", 2, .listRemove),
  ("__arth_list_sort", 1, .listSort), ("__arth_map_new", 0, .mapNew),
  ("__arth_map_put", 3, .mapPut), ("__arth_map_get", 2, .mapGet), ("__arth_map_len", 1, .mapLen),
  ("__arth_map_contains_key", 2, .mapContainsKey), ("__arth_map_remove", 2, .mapRemove),
  ("__arth_map_keys", 1, .mapKeys), ("__arth_map_merge", 2, .mapMerge),
  ("__arth_str_len", 1, .strLen), ("__arth_str_substring", 3, .strSubstring),
  ("__arth_str_indexof", 2, .strIndexOf), ("__arth_str_lastindexof", 2, .strLastIndexOf),
  ("__arth_str_startswith", 2, .strStartsWith), ("__arth_str_endswith", 2, .strEndsWith),
  ("__arth_str_split", 2, .strSplit), ("__arth_str_trim", 1, .strTrim),
  ("__arth_str_tolower", 1, .strToLower), ("__arth_str_toupper", 1, .strToUpper),
  ("__arth_str_replace", 3, .strReplace), ("__arth_str_charat", 2, .strCharAt),
  ("__arth_str_contains", 2, .strContains), ("__arth_str_repeat", 2, .strRepeat),
  ("__arth_str_parseint", 1, .strParseInt), ("__arth_str_parsefloat", 1, .strParseFloat),
  ("__arth_str_fromint", 1, .strFromInt), ("__arth_str_fromfloat", 1, .strFromFloat),
  ("__arth_opt_some", 1, .optSome), ("__arth_opt_none", 0, .optNone),
  ("__arth_opt_is_some", 1, .optIsSome), ("__arth_opt_unwrap", 1, .optUnwrap),
  ("__arth_opt_or_else", 2, .optOrElse), ("__arth_struct_new", 2, .structNew),
  ("__arth_struct_set", 4, .structSet), ("__arth_struct_get", 2, .structGet),
  ("__arth_struct_get_named", 2, .structGetNamed), ("__arth_struct_set_named", 3, .structSetNamed),
  ("__arth_struct_copy", 2, .structCopy), ("__arth_enum_new", 4, .enumNew),
  ("__arth_enum_set_payload", 3, .enumSetPayload), ("__arth_enum_get_payload", 2, .enumGetPayload),
  ("__arth_enum_get_tag", 1, .enumGetTag), ("__arth_http_serve", 1, .hostCallNet .httpServe),
  ("__arth_http_fetch", 1, .hostCallNet .httpFetch),
  ("__arth_http_accept", 1, .hostCallNet .httpAccept),
  ("__arth_json_stringify", 1, .jsonStringify), ("__arth_json_parse", 1, .jsonParse),
  ("__arth_struct_to_json", 2, .structToJson), ("__arth_json_to_struct", 2, .jsonToStruct),
  ("__arth_json_get_field", 2, .jsonGetField), ("__arth_json_get_index", 2, .jsonGetIndex),
  ("__arth_json_get_string", 1, .jsonGetString), ("__arth_json_get_number", 1, .jsonGetNumber),
  ("__arth_json_get_bool", 1, .jsonGetBool), ("__arth_json_is_null", 1, .jsonIsNull),
  ("__arth_json_is_object", 1, .jsonIsObject), ("__arth_json_is_array", 1, .jsonIsArray),
  ("__arth_json_array_len", 1, .jsonArrayLen), ("__arth_json_keys", 1, .jsonKeys),
  ("__arth_file_open", 2, .hostCallIo .fileOpen), ("__arth_file_close", 1, .hostCallIo .fileClose),
  ("__arth_file_read", 2, .hostCallIo .fileRead),
  ("__arth_file_write", 2, .hostCallIo .fileWriteStr),
  ("__arth_file_flush", 1, .hostCallIo .fileFlush), ("__arth_file_seek", 3, .hostCallIo .fileSeek),
  ("__arth_file_size", 1, .hostCallIo .fileSize),
  ("__arth_file_exists", 1, .hostCallIo .fileExists),
  ("__arth_file_delete", 1, .hostCallIo .fileDelete),
  ("__arth_file_copy", 2, .hostCallIo .fileCopy), ("__arth_file_move", 2, .hostCallIo .fileMove),
  ("__arth_dir_create", 1, .hostCallIo .dirCreate),
  ("__arth_dir_create_all", 1, .hostCallIo .dirCreateAll),
  ("__arth_dir_delete", 1, .hostCallIo .dirDelete), ("__arth_dir_list", 1, .hostCallIo .dirList),
  ("__arth_dir_exists", 1, .hostCallIo .dirExists), ("__arth_is_dir", 1, .hostCallIo .isDir),
  ("__arth_is_file", 1, .hostCallIo .isFile),
  ("__arth_path_absolute", 1, .hostCallIo .pathAbsolute),
  ("__arth_console_read_line", 0, .hostCallIo .consoleReadLine),
  ("__arth_console_write", 1, .hostCallIo .consoleWrite),
  ("__arth_console_write_err", 1, .hostCallIo .consoleWriteErr),
  ("__arth_datetime_now", 0, .hostCallTime .dateTimeNow),
  ("__arth_datetime_parse", 2, .hostCallTime .dateTimeParse),
  ("__arth_datetime_format", 2, .hostCallTime .dateTimeFormat),
  ("__arth_instant_now", 0, .hostCallTime .instantNow),
  ("__arth_instant_elapsed", 1, .hostCallTime .instantElapsed),
  ("__arth_sqlite_open", 1, .hostCallDb .sqliteOpen),
  ("__arth_sqlite_close", 1, .hostCallDb .sqliteClose),
  ("__arth_sqlite_prepare", 2, .hostCallDb .sqlitePrepare),
  ("__arth_sqlite_step", 1, .hostCallDb .sqliteStep),
  ("__arth_sqlite_finalize", 1, .hostCallDb .sqliteFinalize),
  ("__arth_sqlite_reset", 1, .hostCallDb .sqliteReset),
  ("__arth_sqlite_bind_int", 3, .hostCallDb .sqliteBindInt),
  ("__arth_sqlite_bind_int64", 3, .hostCallDb .sqliteBindInt64),
  ("__arth_sqlite_bind_double", 3, .hostCallDb .sqliteBindDouble),
  ("__arth_sqlite_bind_text", 3, .hostCallDb .sqliteBindText),
  ("__arth_sqlite_bind_blob", 3, .hostCallDb .sqliteBindBlob),
  ("__arth_sqlite_bind_null", 2, .hostCallDb .sqliteBindNull),
  ("__arth_sqlite_column_int", 2, .hostCallDb .sqliteColumnInt),
  ("__arth_sqlite_column_int64", 2, .hostCallDb .sqliteColumnInt64),
  ("__arth_sqlite_column_double", 2, .hostCallDb .sqliteColumnDouble),
  ("__arth_sqlite_column_text", 2, .hostCallDb .sqliteColumnText),
  ("__arth_sqlite_column_blob", 2, .hostCallDb .sqliteColumnBlob),
  ("__arth_sqlite_column_type", 2, .hostCallDb .sqliteColumnType),
  ("__arth_sqlite_column_count", 1, .hostCallDb .sqliteColumnCount),
  ("__arth_sqlite_column_name", 2, .hostCallDb .sqliteColumnName),
  ("__arth_sqlite_is_null", 2, .hostCallDb .sqliteIsNull),
  ("__arth_sqlite_changes", 1, .hostCallDb .sqliteChanges),
  ("__arth_sqlite_last_insert_rowid", 1, .hostCallDb .sqliteLastInsertRowid),
  ("__arth_sqlite_errmsg", 1, .hostCallDb .sqliteErrmsg),
  ("__arth_sqlite_begin", 1, .hostCallDb .sqliteBegin),
  ("__arth_sqlite_commit", 1, .hostCallDb .sqliteCommit),
  ("__arth_sqlite_rollback", 1, .hostCallDb .sqliteRollback),
  ("__arth_sqlite_savepoint", 2, .hostCallDb .sqliteSavepoint),
  ("__arth_sqlite_release_savepoint", 2, .hostCallDb .sqliteReleaseSavepoint),
  ("__arth_sqlite_rollback_to_savepoint", 2, .hostCallDb .sqliteRollbackToSavepoint),
  ("__arth_pg_connect", 1, .hostCallDb .pgConnect),
  ("__arth_pg_disconnect", 1, .hostCallDb .pgDisconnect),
  ("__arth_pg_status", 1, .hostCallDb .pgStatus), ("__arth_pg_query", 2, .hostCallDb .pgQuery),
  ("__arth_pg_execute", 2, .hostCallDb .pgExecute),
  ("__arth_pg_prepare", 3, .hostCallDb .pgPrepare),
  ("__arth_pg_execute_prepared", 2, .hostCallDb .pgExecutePrepared),
  ("__arth_pg_row_count", 1, .hostCallDb .pgRowCount),
  ("__arth_pg_column_count", 1, .hostCallDb .pgColumnCount),
  ("__arth_pg_column_name", 2, .hostCallDb .pgColumnName),
  ("__arth_pg_column_type", 2, .hostCallDb .pgColumnType),
  ("__arth_pg_get_value", 3, .hostCallDb .pgGetValue),
  ("__arth_pg_get_int", 3, .hostCallDb .pgGetInt),
  ("__arth_pg_get_int64", 3, .hostCallDb .pgGetInt64),
  ("__arth_pg_get_double", 3, .hostCallDb .pgGetDouble),
  ("__arth_pg_get_text", 3, .hostCallDb .pgGetText),
  ("__arth_pg_get_bytes", 3, .hostCallDb .pgGetBytes),
  ("__arth_pg_get_bool", 3, .hostCallDb .pgGetBool),
  ("__arth_pg_is_null", 3, .hostCallDb .pgIsNull),
  ("__arth_pg_affected_rows", 1, .hostCallDb .pgAffectedRows),
  ("__arth_pg_begin", 1, .hostCallDb .pgBegin), ("__arth_pg_commit", 1, .hostCallDb .pgCommit),
  ("__arth_pg_rollback", 1, .hostCallDb .pgRollback),
  ("__arth_pg_savepoint", 2, .hostCallDb .pgSavepoint),
  ("__arth_pg_release_savepoint", 2, .hostCallDb .pgReleaseSavepoint),
  ("__arth_pg_rollback_to_savepoint", 2, .hostCallDb .pgRollbackToSavepoint),
  ("__arth_pg_errmsg", 1, .hostCallDb .pgErrmsg), ("__arth_pg_escape", 2, .hostCallDb .pgEscape),
  ("__arth_pg_free_result", 1, .hostCallDb .pgFreeResult),
  ("__arth_pg_connect_async", 1, .hostCallDb .pgConnectAsync),
  ("__arth_pg_disconnect_async", 1, .hostCallDb .pgDisconnectAsync),
  ("__arth_pg_status_async", 1, .hostCallDb .pgStatusAsync),
  ("__arth_pg_query_async", 2, .hostCallDb .pgQueryAsync),
  ("__arth_pg_execute_async", 2, .hostCallDb .pgExecuteAsync),
  ("__arth_pg_prepare_async", 3, .hostCallDb .pgPrepareAsync),
  ("__arth_pg_execute_prepared_async", 2, .hostCallDb .pgExecutePreparedAsync),
  ("__arth_pg_is_ready", 1, .hostCallDb .pgIsReady),
  ("__arth_pg_get_async_result", 1, .hostCallDb .pgGetAsyncResult),
  ("__arth_pg_cancel_async", 1, .hostCallDb .pgCancelAsync),
  ("__arth_pg_begin_async", 1, .hostCallDb .pgBeginAsync),
  ("__arth_pg_commit_async", 1, .hostCallDb .pgCommitAsync),
  ("__arth_pg_rollback_async", 1, .hostCallDb .pgRollbackAsync),
  ("__arth_sqlite_pool_create", 7, .hostCallDb .sqlitePoolCreate),
  ("__arth_sqlite_pool_close", 1, .hostCallDb .sqlitePoolClose),
  ("__arth_sqlite_pool_acquire", 1, .hostCallDb .sqlitePoolAcquire),
  ("__arth_sqlite_pool_release", 2, .hostCallDb .sqlitePoolRelease),
  ("__arth_sqlite_pool_stats", 1, .hostCallDb .sqlitePoolStats),
  ("__arth_pg_pool_create", 7, .hostCallDb .pgPoolCreate),
  ("__arth_pg_pool_close", 1, .hostCallDb .pgPoolClose),
  ("__arth_pg_pool_acquire", 1, .hostCallDb .pgPoolAcquire),
  ("__arth_pg_pool_release", 2, .hostCallDb .pgPoolRelease),
  ("__arth_pg_pool_stats", 1, .hostCallDb .pgPoolStats),
  ("__arth_sqlite_tx_scope_begin", 1, .hostCallDb .sqliteTxScopeBegin),
  ("__arth_sqlite_tx_scope_end", 3, .hostCallDb .sqliteTxScopeEnd),
  ("__arth_sqlite_tx_depth", 1, .hostCallDb .sqliteTxDepth),
  ("__arth_sqlite_tx_active", 1, .hostCallDb .sqliteTxActive),
  ("__arth_pg_tx_scope_begin", 1, .hostCallDb .pgTxScopeBegin),
  ("__arth_pg_tx_scope_end", 3, .hostCallDb .pgTxScopeEnd),
  ("__arth_pg_tx_depth", 1, .hostCallDb .pgTxDepth),
  ("__arth_pg_tx_active", 1, .hostCallDb .pgTxActive), ("__arth_bigdecimal_new", 1, .bigDecimalNew),
  ("__arth_bigdecimal_from_int", 1, .bigDecimalFromInt),
  ("__arth_bigdecimal_from_float", 1, .bigDecimalFromFloat),
  ("__arth_bigdecimal_add", 2, .bigDecimalAdd), ("__arth_bigdecimal_sub", 2, .bigDecimalSub),
  ("__arth_bigdecimal_mul", 2, .bigDecimalMul), ("__arth_bigdecimal_div", 3, .bigDecimalDiv),
  ("__arth_bigdecimal_rem", 2, .bigDecimalRem), ("__arth_bigdecimal_pow", 2, .bigDecimalPow),
  ("__arth_bigdecimal_negate", 1, .bigDecimalNegate),
  ("__arth_bigdecimal_compare", 2, .bigDecimalCompare),
  ("__arth_bigdecimal_to_string", 1, .bigDecimalToString),
  ("__arth_bigdecimal_to_int", 1, .bigDecimalToInt),
  ("__arth_bigdecimal_to_float", 1, .bigDecimalToFloat),
  ("__arth_bigdecimal_scale", 1, .bigDecimalScale),
  ("__arth_bigdecimal_set_scale", 3, .bigDecimalSetScale),
  ("__arth_bigdecimal_round", 3, .bigDecimalRound), ("__arth_bigint_new", 1, .bigIntNew),
  ("__arth_bigint_from_int", 1, .bigIntFromInt), ("__arth_bigint_add", 2, .bigIntAdd),
  ("__arth_bigint_sub", 2, .bigIntSub), ("__arth_bigint_mul", 2, .bigIntMul),
  ("__arth_bigint_div", 2, .bigIntDiv), ("__arth_bigint_rem", 2, .bigIntRem),
  ("__arth_bigint_pow", 2, .bigIntPow), ("__arth_bigint_negate", 1, .bigIntNegate),
  ("__arth_bigint_compare", 2, .bigIntCompare), ("__arth_bigint_to_string", 1, .bigIntToString),
  ("__arth_bigint_to_int", 1, .bigIntToInt), ("__arth_await", 1, .taskAwait)]

def otherIntrinsics : List (String × Nat × List IntrinsicStep) := [
  ("__arth_mpmc_chan_select_clear", 0, [.op .mpmcChanSelectClear, .op (.pushI64 0), .set]),
  ("__arth_mpmc_chan_select_deregister", 2,
    [.arg 0, .arg 1, .op .mpmcChanSelectDeregister, .op (.pushI64 0), .set]),
  ("__arth_task_yield", 0, [.op (.pushI64 0), .run .timerSleep 1 1, .set]),
  ("__arth_tcp_stream_connect", 2, [.textIx 0, .arg 1, .op .tcpStreamConnect, .set]),
  ("__arth_tcp_stream_connect_async", 3,
    [.textIx 0, .arg 1, .arg 2, .op .tcpStreamConnectAsync, .set]),
  ("__arth_tcp_stream_write", 2, [.arg 0, .textIx 1, .op .tcpStreamWrite, .set]),
  ("__arth_tcp_stream_write_async", 3,
    [.arg 0, .textIx 1, .arg 2, .op .tcpStreamWriteAsync, .set]),
  ("__arth_http_get", 2, [.text 0, .arg 1, .op .httpGet, .set]),
  ("__arth_http_post", 3, [.text 0, .text 1, .arg 2, .op .httpPost, .set]),
  ("__arth_http_get_async", 3, [.text 0, .arg 1, .arg 2, .op .httpGetAsync, .set]),
  ("__arth_http_post_async", 4, [.text 0, .text 1, .arg 2, .arg 3, .op .httpPostAsync, .set]),
  ("__arth_http_response_header", 2, [.arg 0, .text 1, .op .httpResponseHeader, .set]),
  ("__arth_http_request_header", 2, [.arg 0, .text 1, .op .httpRequestHeader, .set]),
  ("__arth_http_writer_header", 3, [.arg 0, .text 1, .text 2, .op .httpWriterHeader, .set]),
  ("__arth_http_writer_body", 2, [.arg 0, .text 1, .op .httpWriterBody, .set]),
  ("__arth_opt_is_none", 1, [.arg 0, .op .optIsSome, .op (.pushI64 0), .op .eqI64, .set])]

end Arth.Codegen
