import KsBuffer.Buffer

/-! # Runs of calls

A run is a sequence of the calls that change a buffer, each made with what the
caller owes it: `ks_buffer_write`, `ks_buffer_zwrite` and `ks_buffer_zero` assert
`buffer->data != NULL`, and `ks_buffer_set_loops` takes an `int`.  `Reach caller start`
collects the states such runs reach from `start` when each call also satisfies
`caller`, the discipline a result asks of the code calling the buffer.  The observers
(`ks_buffer_len`, `ks_buffer_freespace`, `ks_buffer_inuse`, `ks_buffer_packet_count`)
change nothing and are not calls here.  Whatever the caller, every reached state keeps
its live bytes within `[data, data + actually_used)`.
-/

namespace KsBuffer

/-- The least C `int`; `loops` is an `int`. -/
def intMin : Int := -2 ^ 31

/-- The greatest C `int`. -/
def intMax : Int := 2 ^ 31 - 1

/-- A call that changes the buffer, with the outcomes of its `realloc`s. -/
inductive Op where
  | write (data : List UInt8) (reallocOk : Bool)
  | zwrite (data : List UInt8) (reallocOk reallocOk' : Bool)
  | read (datalen : Nat)
  | readLoop (datalen : Nat)
  | setLoops (loops : Int)
  | seek (datalen : Nat)
  | toss (datalen : Nat)
  | readPacket (maxlen : Nat)
  | zero

namespace Op

/-- The state after the call. -/
def apply : Op → Buffer → Buffer
  | write data ok, b => (ksBufferWrite b data ok).1
  | zwrite data ok ok', b => (ksBufferZwrite b data ok ok').1
  | read n, b => (ksBufferRead b n).1
  | readLoop n, b => (ksBufferReadLoop b n).1
  | setLoops k, b => ksBufferSetLoops b k
  | seek n, b => (ksBufferSeek b n).1
  | toss n, b => (ksBufferToss b n).1
  | readPacket n, b => (ksBufferReadPacket b n).1
  | zero, b => ksBufferZero b

/-- What the caller owes the call. -/
def Allowed : Op → Buffer → Prop
  | write .., b | zwrite .., b | zero, b => b.allocated = true
  | setLoops k, _ => intMin ≤ k ∧ k ≤ intMax
  | _, _ => True

instance : (op : Op) → (b : Buffer) → Decidable (op.Allowed b)
  | write .., b | zwrite .., b | zero, b => inferInstanceAs (Decidable (b.allocated = true))
  | setLoops _, _ => inferInstanceAs (Decidable (_ ∧ _))
  | read _, _ | readLoop _, _ | seek _, _ | toss _, _ | readPacket _, _ => isTrue trivial

/-- The bytes a call copies to its caller's `data`. -/
def output : Op → Buffer → List UInt8
  | read n, b => (ksBufferRead b n).2
  | readLoop n, b => (ksBufferReadLoop b n).2.1
  | readPacket n, b => (ksBufferReadPacket b n).2
  | _, _ => []

/-- The bytes a call takes from its caller: those of a write that does not return 0. -/
def input : Op → Buffer → List UInt8
  | write data ok, b => if (ksBufferWrite b data ok).2 = 0 then [] else data
  | zwrite data ok ok', b => if (ksBufferZwrite b data ok ok').2 = 0 then [] else data
  | _, _ => []

end Op

/-- The states reached from `start` by runs whose calls are allowed and follow `caller`. -/
inductive Reach (caller : Buffer → Op → Prop) (start : Buffer) : Buffer → Prop
  | init : Reach caller start start
  | step {b : Buffer} (op : Op) : Reach caller start b → op.Allowed b → caller b op →
      Reach caller start (op.apply b)

/-- The states of a buffer from `ks_buffer_create` after any run. -/
def Reachable (b : Buffer) : Prop :=
  ∃ blocksize startLen maxLen, Reach (fun _ _ => True) (newBuffer blocksize startLen maxLen) b

/-- The state after the calls `ops`. -/
def runOps (b : Buffer) : List Op → Buffer
  | [] => b
  | op :: ops => runOps (op.apply b) ops

/-- The bytes the calls `ops` copy out, in order. -/
def runOutput : Buffer → List Op → List UInt8
  | _, [] => []
  | b, op :: ops => op.output b ++ runOutput (op.apply b) ops

/-- The bytes the calls `ops` take in, in order. -/
def runInput : Buffer → List Op → List UInt8
  | _, [] => []
  | b, op :: ops => op.input b ++ runInput (op.apply b) ops

/-- Each call of `ops` is allowed and follows `caller` in the state it is made in. -/
def RunFollows (caller : Buffer → Op → Prop) : Buffer → List Op → Prop
  | _, [] => True
  | b, op :: ops => op.Allowed b ∧ caller b op ∧ RunFollows caller (op.apply b) ops

instance decRunFollows (caller : Buffer → Op → Prop) [∀ b op, Decidable (caller b op)] :
    (b : Buffer) → (ops : List Op) → Decidable (RunFollows caller b ops)
  | _, [] => isTrue trivial
  | b, op :: ops =>
      have := decRunFollows caller (op.apply b) ops
      inferInstanceAs (Decidable (_ ∧ _ ∧ _))

section Reach

variable {caller : Buffer → Op → Prop} {start : Buffer}

/-- A property of `start` that every call of the run keeps holds in every reached state. -/
theorem Reach.invariant (P : Buffer → Prop) (h₀ : P start)
    (hstep : ∀ b op, P b → op.Allowed b → caller b op → P (op.apply b))
    {b : Buffer} (h : Reach caller start b) : P b := by
  induction h with
  | init => exact h₀
  | step op _ ha hc ih => exact hstep _ op ih ha hc

theorem Reach.mono {caller' : Buffer → Op → Prop} (hle : ∀ b op, caller b op → caller' b op)
    {b : Buffer} (h : Reach caller start b) : Reach caller' start b := by
  induction h with
  | init => exact .init
  | step op _ ha hc ih => exact .step op ih ha (hle _ _ hc)

theorem Reach.runOps {b : Buffer} {ops : List Op} (h : Reach caller start b)
    (hr : RunFollows caller b ops) : Reach caller start (runOps b ops) := by
  induction ops generalizing b with
  | nil => exact h
  | cons op ops ih => exact ih (.step op h hr.1 hr.2.1) hr.2.2

theorem reachable_runOps {blocksize startLen maxLen : Nat} {ops : List Op}
    (hr : RunFollows (fun _ _ => True) (newBuffer blocksize startLen maxLen) ops) :
    Reachable (runOps (newBuffer blocksize startLen maxLen) ops) :=
  ⟨blocksize, startLen, maxLen, Reach.init.runOps hr⟩

end Reach

/-! ## What the calls keep -/

theorem Op.config_apply (op : Op) (b : Buffer) :
    (op.apply b).blocksize = b.blocksize ∧ (op.apply b).maxLen = b.maxLen := by
  cases op with
  | write data ok => simp [Op.apply]
  | zwrite data ok ok' =>
      simp only [Op.apply, ksBufferZwrite]
      split <;> simp [ksBufferZero]
  | readLoop n =>
      by_cases hr : Replays b n
      · simp only [Op.apply, ksBufferReadLoop_replay hr, ksBufferRead_fst, and_self]
      · simp only [Op.apply, ksBufferReadLoop_of_not_replays hr, ksBufferRead_fst, and_self]
  | seek n =>
      simp only [Op.apply, ksBufferSeek]
      split <;> simp
  | read n | readPacket n => simp only [Op.apply, ksBufferReadPacket, ksBufferRead_fst, and_self]
  | toss n => simp [Op.apply, ksBufferToss_eq]
  | setLoops k | zero => exact ⟨rfl, rfl⟩

theorem Op.datalen_apply (op : Op) (b : Buffer)
    (hw : ∀ data ok, op ≠ .write data ok) (hz : ∀ data ok ok', op ≠ .zwrite data ok ok') :
    (op.apply b).datalen = b.datalen := by
  cases op with
  | write data ok => exact absurd rfl (hw data ok)
  | zwrite data ok ok' => exact absurd rfl (hz data ok ok')
  | readLoop n =>
      by_cases hr : Replays b n
      · simp only [Op.apply, ksBufferReadLoop_replay hr, ksBufferRead_fst]
      · simp only [Op.apply, ksBufferReadLoop_of_not_replays hr, ksBufferRead_fst]
  | seek n =>
      simp only [Op.apply, ksBufferSeek]
      split <;> rfl
  | read n | readPacket n => simp only [Op.apply, ksBufferReadPacket, ksBufferRead_fst]
  | toss n => simp only [Op.apply, ksBufferToss_eq]
  | setLoops k | zero => rfl

/-! ## The live bytes end by `actually_used` -/

/-- The live bytes `[head, head + used)` end at or before `actually_used`. -/
def LiveInside (b : Buffer) : Prop := b.head + b.used ≤ b.actuallyUsed

theorem compactStep_liveInside {b : Buffer} (n : Nat) (h : LiveInside b) :
    LiveInside (compactStep b n) := by
  unfold compactStep LiveInside at *; split <;> simp [h]

theorem storeStep_liveInside {b : Buffer} (data : List UInt8) (h : LiveInside b) :
    LiveInside (storeStep b data).1 := by
  unfold storeStep LiveInside at *; split <;> simp <;> omega

theorem ksBufferWrite_liveInside {b : Buffer} (data : List UInt8) (ok : Bool) (h : LiveInside b) :
    LiveInside (ksBufferWrite b data ok).1 := by
  by_cases hd : data = []
  · subst hd; exact h
  have hc := compactStep_liveInside data.length h
  unfold LiveInside at hc
  rcases ksBufferWrite_cases b data ok hd with ⟨hw, -⟩ | ⟨hw, -⟩ | ⟨hw, -⟩ <;> rw [hw]
  · exact storeStep_liveInside _ hc
  · exact storeStep_liveInside _ (by simp only [LiveInside, grown]; omega)
  · simp only [LiveInside]; omega

theorem ksBufferReadLoop_liveInside {b : Buffer} (n : Nat) (h : LiveInside b) :
    LiveInside (ksBufferReadLoop b n).1 := by
  unfold LiveInside at *
  by_cases hr : Replays b n
  · simp only [ksBufferReadLoop_replay hr, ksBufferRead_fst]; omega
  · simp only [ksBufferReadLoop_of_not_replays hr, ksBufferRead_fst]; omega

theorem Op.liveInside_apply {b : Buffer} (op : Op) (h : LiveInside b) : LiveInside (op.apply b) := by
  cases op with
  | write data ok => exact ksBufferWrite_liveInside data ok h
  | zwrite data ok ok' =>
      simp only [Op.apply, ksBufferZwrite]
      split
      · exact ksBufferWrite_liveInside data ok' (by simp [LiveInside, ksBufferZero])
      · exact ksBufferWrite_liveInside data ok h
  | readLoop n => exact ksBufferReadLoop_liveInside n h
  | seek n =>
      unfold LiveInside at *
      simp only [Op.apply, ksBufferSeek]
      split <;> simp only [reading_eq_min] <;> omega
  | read n | readPacket n =>
      unfold LiveInside at *
      simp only [Op.apply, ksBufferReadPacket, ksBufferRead_fst]; omega
  | toss n => unfold LiveInside at *; simp only [Op.apply, ksBufferToss_eq]; omega
  | setLoops k => exact h
  | zero => simp [LiveInside, Op.apply, ksBufferZero]

theorem Reach.liveInside {caller : Buffer → Op → Prop} {blocksize startLen maxLen : Nat} {b : Buffer}
    (h : Reach caller (newBuffer blocksize startLen maxLen) b) : LiveInside b :=
  h.invariant LiveInside (by simp [LiveInside, newBuffer]) fun _ op hb _ _ => op.liveInside_apply hb

theorem Reachable.used_le {b : Buffer} (hb : Reachable b) : b.used ≤ b.actuallyUsed := by
  obtain ⟨_, _, _, h⟩ := hb
  have : LiveInside b := h.liveInside
  unfold LiveInside at this
  omega

/-- In every reached state the live bytes lie within `[data, data + actually_used)`. -/
theorem reachable_live_infix {b : Buffer} (hb : Reachable b) :
    b.head + b.used ≤ b.actuallyUsed ∧ live b <:+: slice b.mem 0 b.actuallyUsed := by
  obtain ⟨_, _, _, h⟩ := hb
  have hl : LiveInside b := h.liveInside
  obtain ⟨r, hr⟩ : ∃ r, b.actuallyUsed = b.head + b.used + r := ⟨_, (Nat.add_sub_of_le hl).symm⟩
  refine ⟨hl, slice b.mem 0 b.head, slice b.mem (b.head + b.used) r, ?_⟩
  rw [hr, Nat.add_assoc, slice_add, Nat.zero_add, slice_add, List.append_assoc]
  rfl

theorem reachable_live_infix_after_seek :
    let b := runOps (newBuffer 0 4 0) [.write [97, 98, 99] true, .read 1, .seek 0]
    b.head + b.used ≤ b.actuallyUsed ∧ live b <:+: slice b.mem 0 b.actuallyUsed :=
  reachable_live_infix (reachable_runOps (by decide))

/-! ## Seeking -/

end KsBuffer
