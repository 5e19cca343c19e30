import Arth.Vm.Bytecode

/-!
# The instruction table reads back

`decodeOp_reads`: the decoder's table inverts the encoder's, instruction by
instruction, whatever stands behind the instruction in the stream.
-/

namespace Arth

open ByteReader

/-! ## Numbers and texts -/

theorem readU32_reads (n : UInt32) : Reads readU32 (u32Le n) n := by
  have h := (reads_take (ε := DecodeError) (fun _ => .text "unexpected EOF while reading u32")
    (length_toLe 4 n.toNat)).map fun bs => UInt32.ofNat (ofLe bs)
  rwa [ofLe_toLe 4 n.toNat (by simpa using n.toNat_lt), UInt32.ofNat_toNat] at h

theorem toNat_ofNat_u32 {n : Nat} (h : n < 2 ^ 32) : (UInt32.ofNat n).toNat = n := by
  simpa using Nat.mod_eq_of_lt h

theorem ofLe_u64Le (n : UInt64) : UInt64.ofNat (ofLe (u64Le n)) = n := by
  rw [u64Le, ofLe_toLe 8 n.toNat (by simpa using n.toNat_lt), UInt64.ofNat_toNat]

theorem length_u64Le (n : UInt64) : (u64Le n).length = 8 := length_toLe 8 _

theorem fromUTF8_asBytes (s : String) : String.fromUTF8? ⟨(asBytes s).toArray⟩ = some s := by
  have hb : (⟨(asBytes s).toArray⟩ : ByteArray) = s.toByteArray := by simp [asBytes]
  rw [hb, String.fromUTF8?, dif_pos s.isValidUTF8]
  rfl

theorem asBytes_eq_nil {s : String} : asBytes s = [] ↔ s = "" := by
  constructor
  · intro h
    have hs := fromUTF8_asBytes s
    rw [h] at hs
    exact (Option.some.inj hs).symm
  · rintro rfl; rfl

theorem readText_reads {s : String} {n : Nat} (h : (asBytes s).length = n) (expected : String)
    (phase : DecodePhase) : Reads (readText n expected phase) (asBytes s) s := by
  refine reads_pos fun off => ?_
  rw [← List.append_nil (asBytes s)]
  refine Reads.bind (reads_take _ h) ?_
  simp only [fromUTF8_asBytes]
  exact Reads.pure s

/-! ## Instructions -/

variable {b : UInt8} {op : Op} {e : List UInt8}

theorem decodeOp_of_arm (h : ∀ off, Reads (decodeArm b off) e op) : Reads decodeOp (b :: e) op :=
  reads_pos fun off => (reads_byte _ b).bind (h off)

theorem decodeOp_plain (h : plainOp b = some op) : Reads decodeOp [b] op := by
  refine decodeOp_of_arm fun off => ?_
  rw [decodeArm, h]
  exact Reads.pure op

theorem decodeOp_operand (hp : plainOp b = none)
    (h : ∀ off, Reads (operandArm b off) e op) : Reads decodeOp (b :: e) op := by
  refine decodeOp_of_arm fun off => ?_
  rw [decodeArm, hp]
  exact h off

theorem u32Arm_reads (f : UInt32 → Op) (ix : UInt32) : Reads (u32Arm f) (u32Le ix) (f ix) :=
  (readU32_reads ix).map f

theorem decodeOp_u32 (f : UInt32 → Op) (hp : plainOp b = none)
    (h : ∀ off, operandArm b off = u32Arm f) (ix : UInt32) :
    Reads decodeOp (b :: u32Le ix) (f ix) :=
  decodeOp_operand hp fun off => (h off).symm ▸ u32Arm_reads f ix

theorem decodeOp_sub {sub : UInt8} (category : String) (table : UInt8 → Option Op)
    (hp : plainOp b = none) (h : ∀ off, operandArm b off = subArm category b table)
    (hs : table sub = some op) : Reads decodeOp [b, sub] op := by
  refine decodeOp_operand hp fun off => ?_
  rw [h off, ← List.append_nil [sub]]
  refine Reads.bind (reads_byte _ sub) ?_
  rw [hs]
  exact Reads.pure op

theorem hostArm_reads {α : Type} (name : String) {toU8 : α → UInt8} {fromU8 : UInt8 → Option α}
    (h : ∀ o, fromU8 (toU8 o) = some o) (f : α → Op) (o : α) :
    Reads (hostArm name fromU8 f) [toU8 o] (f o) := by
  refine Reads.bind (reads_byte _ _) ?_
  rw [h o]
  exact Reads.pure (f o)

theorem byteArm_reads (message : String) (f : UInt8 → Op) (b : UInt8) :
    Reads (byteArm message f) [b] (f b) :=
  (reads_byte _ b).map f

theorem pushI64_reads (n : Int64) : Reads decodeOp (0x10 :: i64Le n) (.pushI64 n) := by
  refine decodeOp_operand (by decide) fun off => ?_
  have h := (reads_take (ε := DecodeError) (fun _ => .text "unexpected EOF while reading i64")
    (length_u64Le n.toUInt64)).map fun bs => Op.pushI64 (UInt64.ofNat (ofLe bs)).toInt64
  rwa [ofLe_u64Le] at h

theorem pushF64_reads (x : F64) : Reads decodeOp (0x12 :: u64Le x.bits) (.pushF64 x) := by
  refine decodeOp_operand (by decide) fun off => ?_
  have h := (reads_take (ε := DecodeError) (fun _ => .text "unexpected EOF while reading f64")
    (length_u64Le x.bits)).map fun bs => Op.pushF64 ⟨UInt64.ofNat (ofLe bs)⟩
  rwa [ofLe_u64Le] at h

theorem closureNew_reads (f n : UInt32) :
    Reads decodeOp (0xCE :: (u32Le f ++ u32Le n)) (.closureNew f n) :=
  decodeOp_operand (by decide) fun _ => (readU32_reads f).bind (u32Arm_reads _ n)

theorem externCall_reads (sym : UInt32) (argc : UInt8) (floatMask : UInt32) (retKind : UInt8) :
    Reads decodeOp (0xE0 :: (u32Le sym ++ ([argc] ++ (u32Le floatMask ++ [retKind]))))
      (.externCall sym argc floatMask retKind) :=
  decodeOp_operand (by decide) fun _ => (readU32_reads sym).bind
    ((reads_byte _ argc).bind ((readU32_reads floatMask).bind (byteArm_reads _ _ retKind)))

theorem hostIoOp_not_ext (o : HostIoOp) :
    o.toU8 ≠ hostCallExtDb ∧ o.toU8 ≠ hostCallExtMail ∧ o.toU8 ≠ hostCallExtCrypto := by
  cases o <;> decide

theorem hostCallIo_reads (o : HostIoOp) : Reads decodeOp [0xA1, o.toU8] (.hostCallIo o) := by
  refine decodeOp_operand (by decide) fun off => ?_
  obtain ⟨h₁, h₂, h₃⟩ := hostIoOp_not_ext o
  refine Reads.bind (reads_byte _ _) ?_
  rw [hostIoArm, if_neg h₁, if_neg h₂, if_neg h₃, HostIoOp.fromU8_toU8]
  exact Reads.pure _

theorem hostExt_reads {α : Type} (name : String) {toU8 : α → UInt8} {fromU8 : UInt8 → Option α}
    (h : ∀ o, fromU8 (toU8 o) = some o) (f : α → Op) (o : α) {tag : UInt8}
    (ht : hostIoArm tag = hostArm name fromU8 f) : Reads decodeOp [0xA1, tag, toU8 o] (f o) := by
  refine decodeOp_operand (by decide) fun off => ?_
  refine Reads.bind (reads_byte _ _) ?_
  rw [ht]
  exact hostArm_reads name h f o

/-- **The instruction table.** Every encodable instruction reads back. -/
theorem decodeOp_reads {enc : List UInt8} (h : encodeOp op = some enc) : Reads decodeOp enc op := by
  cases op
  case pushI64 n => cases h; exact pushI64_reads n
  case pushF64 x => cases h; exact pushF64_reads x
  case pushBool b => cases h; exact decodeOp_operand (by decide) fun _ => byteArm_reads _ _ b
  case closureNew f n => cases h; exact closureNew_reads f n
  case externCall s a m r => cases h; simpa using externCall_reads s a m r
  case hostCallIo o => cases h; exact hostCallIo_reads o
  case hostCallNet o =>
    cases h; exact decodeOp_operand (by decide) fun _ => hostArm_reads _ HostNetOp.fromU8_toU8 _ o
  case hostCallTime o =>
    cases h; exact decodeOp_operand (by decide) fun _ => hostArm_reads _ HostTimeOp.fromU8_toU8 _ o
  case hostCallDb o => cases h; exact hostExt_reads _ HostDbOp.fromU8_toU8 _ o rfl
  case hostCallMail o => cases h; exact hostExt_reads _ HostMailOp.fromU8_toU8 _ o rfl
  case hostCallCrypto o => cases h; exact hostExt_reads _ HostCryptoOp.fromU8_toU8 _ o rfl
  case print ix | printStrVal ix | printRaw ix | printRawStrVal ix | pushStr ix | jump ix
      | jumpIfFalse ix | call ix | callSymbol ix | localGet ix | localSet ix
      | sharedGetByName ix | closureCall ix | rcDecWithDeinit ix | regionEnter ix
      | regionExit ix | panic ix | setUnwindHandler ix | taskRunBody ix =>
    cases h; exact decodeOp_u32 _ (by decide +kernel) (fun _ => rfl) ix
  -- what is left is one byte, a prefix and a sub-opcode, or not encodable
  all_goals first
    | (cases h; exact decodeOp_plain (by decide +kernel))
    | (cases h; exact decodeOp_sub _ _ (by decide +kernel) (fun _ => rfl) (by decide +kernel))
    | cases h

end Arth
