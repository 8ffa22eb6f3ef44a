import KsBuffer.Framing

/-! # The buffer as a byte queue

A buffer stands for the queue of its live bytes, `used` bytes from `head`.  The
write keeps them in place, and inside the block, only while two facts hold: the live
bytes end at `actually_used`, and `actually_used` is at most `datalen` (`Layout`).
The write's free-space test and its growth branch both take `head` to be `data`
whenever the tail is short, which the compaction before them makes true unless
`max_len` forbids it.  So the layout and the queue survive every run in which
`max_len` never forbids a needed compaction (`CompactingCaller`).  Where it does, a
write that still fits copies past the block and a write that grows resets `head`
without the live bytes; the last two results are runs that get there.  Over a whole
run of such a caller, what the reads copy out and what stays live is exactly what the
writes took in, and writes into a fresh block that they fit lay their bytes out from
`data`.
-/

namespace KsBuffer

/-- The live bytes end at `actually_used`, inside the block. -/
structure Layout (b : Buffer) : Prop where
  live_end : b.head + b.used = b.actuallyUsed
  in_block : b.actuallyUsed ≤ b.datalen

/-- A write of `n` bytes that `max_len` does not keep from compacting. -/
def CompactionFree (b : Buffer) (n : Nat) : Prop := b.maxLen = 0 ∨ b.used + n ≤ b.maxLen

/-- Callers whose writes are all `CompactionFree`, every caller when `max_len` is 0. -/
def CompactingCaller (b : Buffer) : Op → Prop
  | .write data _ | .zwrite data _ _ => CompactionFree b data.length
  | _ => True

instance (b : Buffer) (n : Nat) : Decidable (CompactionFree b n) :=
  inferInstanceAs (Decidable (_ ∨ _))

instance : (b : Buffer) → (op : Op) → Decidable (CompactingCaller b op)
  | b, .write data _ | b, .zwrite data _ _ => inferInstanceAs (Decidable (CompactionFree b data.length))
  | _, .read _ | _, .readLoop _ | _, .setLoops _ | _, .seek _ | _, .toss _ | _, .readPacket _
  | _, .zero => isTrue trivial

/-! ## Reads -/

theorem ksBufferToss_live (b : Buffer) (n : Nat) :
    live (ksBufferToss b n).1 = (live b).drop n := by
  simp [ksBufferToss_eq, live, slice_drop]

theorem ksBufferReadPacket_live (b : Buffer) (maxlen : Nat) :
    (ksBufferReadPacket b maxlen).2 ++ live (ksBufferReadPacket b maxlen).1 = live b := by
  rw [ksBufferReadPacket, (ksBufferRead_live _ _).1, (ksBufferRead_live _ _).2,
    List.take_append_drop]

theorem ksBufferRead_layout {b : Buffer} (n : Nat) (h : Layout b) : Layout (ksBufferRead b n).1 :=
  ⟨by simp only [ksBufferRead_fst]; have := h.live_end; omega, by rw [ksBufferRead_fst]; exact h.in_block⟩

theorem ksBufferToss_layout {b : Buffer} (n : Nat) (h : Layout b) : Layout (ksBufferToss b n).1 :=
  ⟨by simp only [ksBufferToss_eq]; have := h.live_end; omega, by rw [ksBufferToss_eq]; exact h.in_block⟩

/-! ## Writes -/

section Write

variable {b : Buffer} {data : List UInt8}

theorem compactStep_layout (hl : Layout b) (hc : CompactionFree b data.length) :
    Layout (compactStep b data.length) ∧ live (compactStep b data.length) = live b ∧
      ((compactStep b data.length).actuallyUsed + data.length ≤ b.datalen ∨
        (compactStep b data.length).head = 0 ∧
          (compactStep b data.length).actuallyUsed = b.used) := by
  have := hl.live_end
  have := hl.in_block
  unfold compactStep
  split
  · refine ⟨⟨by simp, by simp; omega⟩, by simp [live, slice_memmove], Or.inr ⟨rfl, rfl⟩⟩
  · rename_i hn
    exact ⟨hl, rfl, Or.inl (by unfold CompactionFree at hc; omega)⟩

theorem storeStep_layout {c : Buffer} (data : List UInt8) (hl : Layout c)
    (hfit : c.actuallyUsed + data.length ≤ c.datalen) :
    storeStep c data = ({ c with
        mem := memcpy c.mem (c.head + c.used) data
        used := c.used + data.length
        actuallyUsed := c.actuallyUsed + data.length }, c.used + data.length) ∧
      Layout (storeStep c data).1 ∧ live (storeStep c data).1 = live c ++ data := by
  have := hl.live_end
  rw [storeStep_of_fits data (by omega)]
  exact ⟨rfl, ⟨by simp; omega, by simpa⟩, slice_memcpy_append _ _ _ _⟩

theorem compactStep_of_full (hl : Layout b) (hc : CompactionFree b data.length)
    (hfull : b.datalen < b.used + data.length) :
    (compactStep b data.length).head = 0 ∧ (compactStep b data.length).actuallyUsed = b.used := by
  obtain ⟨hcl, -, hroom | hroom⟩ := compactStep_layout hl hc
  · have := hcl.live_end; simp at this; omega
  · exact hroom

theorem compactStep_mem_of_le (hl : Layout b) (n : Nat) {i : Nat} (hi : b.datalen ≤ i) :
    (compactStep b n).mem i = b.mem i := by
  have := hl.in_block
  have := hl.live_end
  unfold compactStep
  split
  · simp only [memmove]; rw [if_neg (by omega)]
  · rfl

theorem ksBufferWrite_compactionFree (ok : Bool) (hl : Layout b) (hc : CompactionFree b data.length)
    (hd : data ≠ []) :
    (∃ c, ksBufferWrite b data ok = storeStep c data ∧ Layout c ∧ live c = live b ∧
        c.used = b.used ∧ c.actuallyUsed + data.length ≤ c.datalen ∧ b.datalen ≤ c.datalen ∧
        ∀ i, b.datalen ≤ i → c.mem i = b.mem i) ∨
      ok = false ∧ ksBufferWrite b data ok = (compactStep b data.length, 0) ∧
        b.datalen < b.used + data.length := by
  obtain ⟨hcl, hlive, hroom⟩ := compactStep_layout hl hc
  have := hcl.live_end
  have hin : (compactStep b data.length).actuallyUsed ≤ b.datalen := by simpa using hcl.in_block
  rcases ksBufferWrite_cases b data ok hd with ⟨hw, hfit⟩ | ⟨hw, hfull, rfl⟩ | ⟨hw, hfull, rfl⟩
  · refine Or.inl ⟨_, hw, hcl, hlive, by simp, ?_, by simp, fun i => compactStep_mem_of_le hl _⟩
    simp only [compactStep_datalen, compactStep_used] at this ⊢
    omega
  · -- the growth branch: the compaction has already put the live bytes at `data`
    obtain ⟨h0, hau⟩ := compactStep_of_full hl hc hfull
    refine Or.inl ⟨_, hw, ⟨?_, ?_⟩, ?_, by simp [grown], ?_, ?_, fun i => compactStep_mem_of_le hl _⟩
    all_goals simp only [grown, compactStep_datalen, compactStep_used] at hau h0 ⊢
    · omega
    · omega
    · rw [← hlive]; simp only [live, h0, compactStep_used]
    · omega
    · omega
  · obtain ⟨h0, -⟩ := compactStep_of_full hl hc hfull
    refine Or.inr ⟨rfl, ?_, hfull⟩
    rw [hw, ← h0]

/-- A `CompactionFree` write keeps the layout and appends `data`, or returns 0 when its
`realloc` fails. -/
theorem ksBufferWrite_live (ok : Bool) (hl : Layout b) (hc : CompactionFree b data.length) :
    Layout (ksBufferWrite b data ok).1 ∧
      ((ksBufferWrite b data ok).2 = b.used + data.length ∧
          live (ksBufferWrite b data ok).1 = live b ++ data ∨
        ok = false ∧ (ksBufferWrite b data ok).2 = 0 ∧ live (ksBufferWrite b data ok).1 = live b) := by
  by_cases hd : data = []
  · subst hd; exact ⟨hl, Or.inl ⟨rfl, by simp [live]⟩⟩
  rcases ksBufferWrite_compactionFree ok hl hc hd with
    ⟨c, hw, hcl, hlive, hused, hroom, -⟩ | ⟨rfl, hw, -⟩
  · obtain ⟨hs, hsl, hslive⟩ := storeStep_layout data hcl hroom
    rw [hw]
    exact ⟨hsl, Or.inl ⟨by rw [hs, hused], by rw [hslive, hlive]⟩⟩
  · obtain ⟨hcl, hlive, -⟩ := compactStep_layout hl hc
    rw [hw]
    exact ⟨hcl, Or.inr ⟨rfl, rfl, hlive⟩⟩

theorem ksBufferWrite_mem_frame (ok : Bool) (hl : Layout b) (hc : CompactionFree b data.length)
    {i : Nat} (hi : (ksBufferWrite b data ok).1.datalen ≤ i) :
    (ksBufferWrite b data ok).1.mem i = b.mem i := by
  by_cases hd : data = []
  · subst hd; rfl
  rcases ksBufferWrite_compactionFree ok hl hc hd with
    ⟨c, hw, hcl, -, -, hroom, hle, hcm⟩ | ⟨rfl, hw, -⟩
  · rw [hw, (storeStep_layout data hcl hroom).1] at hi ⊢
    have := hcl.live_end
    exact (memcpy_of_le (by simp only at hi; omega)).trans (hcm i (by simp only at hi; omega))
  · rw [hw] at hi ⊢
    exact compactStep_mem_of_le hl _ (by simpa using hi)

end Write

/-! ## Runs that never block a compaction -/

theorem Op.layout_apply {b : Buffer} (op : Op) (hl : Layout b) (hc : CompactingCaller b op) :
    Layout (op.apply b) := by
  have := hl.live_end
  have := hl.in_block
  cases op with
  | write data ok => exact (ksBufferWrite_live ok hl hc).1
  | zwrite data ok ok' =>
      simp only [Op.apply, ksBufferZwrite]
      split
      · refine (ksBufferWrite_live ok' ⟨by simp [ksBufferZero], by simp [ksBufferZero]⟩ ?_).1
        simp only [CompactingCaller, CompactionFree] at hc ⊢
        simp [ksBufferZero]; omega
      · exact (ksBufferWrite_live ok hl hc).1
  | read n => exact ksBufferRead_layout n hl
  | toss n => exact ksBufferToss_layout n hl
  | readPacket n => exact ksBufferRead_layout _ hl
  | readLoop n =>
      by_cases hr : Replays b n
      · have h₂ := ksBufferRead_layout (n - b.used)
          (⟨Nat.zero_add _, hl.in_block⟩ : Layout { b with head := 0, used := b.actuallyUsed })
        simp only [Op.apply, ksBufferReadLoop_replay hr]
        exact ⟨h₂.1, h₂.2⟩
      · simp only [Op.apply, ksBufferReadLoop_of_not_replays hr]
        exact ksBufferRead_layout n hl
  | seek n =>
      rcases Nat.eq_zero_or_pos b.used with h0 | hpos
      · simpa only [Op.apply, ksBufferSeek_of_zero n h0] using hl
      · simp only [Op.apply, ksBufferSeek_of_pos n hpos]
        exact ⟨by dsimp only; have := hl.live_end; omega, hl.in_block⟩
  | setLoops k => exact ⟨hl.1, hl.2⟩
  | zero => exact ⟨by simp [Op.apply, ksBufferZero], by simp [Op.apply, ksBufferZero]⟩

theorem Reach.layout {caller : Buffer → Op → Prop} {blocksize startLen maxLen : Nat} {b : Buffer}
    (hcaller : ∀ b op, caller b op → CompactingCaller b op)
    (h : Reach caller (newBuffer blocksize startLen maxLen) b) : Layout b :=
  h.invariant Layout ⟨rfl, Nat.zero_le _⟩ fun _ op hl _ hc => op.layout_apply hl (hcaller _ _ hc)

/-- Runs that `max_len` never keeps from compacting keep the live bytes in `Layout`. -/
theorem layout_of_compactingCaller {blocksize startLen maxLen : Nat} {b : Buffer}
    (h : Reach CompactingCaller (newBuffer blocksize startLen maxLen) b) : Layout b :=
  h.layout fun _ _ => id

theorem layout_of_compactingCaller_run :
    Layout (runOps (newBuffer 0 4 0) [.write [97, 98, 99] true, .read 2, .write [100, 101] true]) :=
  layout_of_compactingCaller (Reach.init.runOps (by decide))

/-- A write of such a run changes no byte past the block it leaves. -/
theorem compactingCaller_write_in_block {blocksize startLen maxLen : Nat} {b : Buffer}
    (h : Reach CompactingCaller (newBuffer blocksize startLen maxLen) b) (data : List UInt8)
    (ok : Bool) (hc : CompactionFree b data.length) {i : Nat}
    (hi : (ksBufferWrite b data ok).1.datalen ≤ i) : (ksBufferWrite b data ok).1.mem i = b.mem i :=
  ksBufferWrite_mem_frame ok (h.layout fun _ _ => id) hc hi

theorem compactingCaller_write_in_block_run :
    (ksBufferWrite (runOps (newBuffer 0 4 0) [.write [97, 98, 99] true, .read 2])
      [100, 101, 102] true).1.mem 4 = (runOps (newBuffer 0 4 0) [.write [97, 98, 99] true, .read 2]).mem 4 :=
  compactingCaller_write_in_block (Reach.init.runOps (by decide)) _ _ (by decide) (by decide)

/-! ## The queue the buffer stands for -/

/-- What each queue call does to the live bytes; read-loop and seek are not queue calls. -/
def Op.FifoStep : Op → List UInt8 → List UInt8 → Prop
  | .write data ok, q, q' => q' = q ++ data ∨ ok = false ∧ q' = q
  | .zwrite data ok ok', q, q' =>
      q' = q ++ data ∨ ok = false ∧ (q' = data ∨ ok' = false ∧ q' = [])
  | .read n, q, q' | .toss n, q, q' => q' = q.drop n
  | .readPacket _, q, q' => ∃ p, q = p ++ q'
  | .setLoops _, q, q' => q' = q
  | .zero, _, q' => q' = []
  | .readLoop _, _, _ | .seek _, _, _ => False

/-- Callers of the queue calls whose writes are `CompactionFree`. -/
def FifoCaller (b : Buffer) : Op → Prop
  | .readLoop _ | .seek _ => False
  | op => CompactingCaller b op

instance : (b : Buffer) → (op : Op) → Decidable (FifoCaller b op)
  | _, .readLoop _ | _, .seek _ => isFalse id
  | b, .write data ok => inferInstanceAs (Decidable (CompactingCaller b (.write data ok)))
  | b, .zwrite data ok ok' => inferInstanceAs (Decidable (CompactingCaller b (.zwrite data ok ok')))
  | _, .read _ | _, .setLoops _ | _, .toss _ | _, .readPacket _ | _, .zero => isTrue trivial

theorem ksBufferZero_layout (b : Buffer) : Layout (ksBufferZero b) :=
  ⟨rfl, Nat.zero_le _⟩

@[simp] theorem live_ksBufferZero (b : Buffer) : live (ksBufferZero b) = [] := rfl

/-- The buffer refines a byte queue: each call moves the live bytes as `FifoStep` does. -/
theorem fifo_simulation {blocksize startLen maxLen : Nat} {b : Buffer}
    (h : Reach FifoCaller (newBuffer blocksize startLen maxLen) b) (op : Op)
    (hc : FifoCaller b op) : op.FifoStep (live b) (live (op.apply b)) := by
  have hl : Layout b := h.layout fun b op h => by cases op <;> first | exact h | exact h.elim
  cases op with
  | write data ok =>
      rcases (ksBufferWrite_live ok hl hc).2 with h₁ | h₁
      · exact Or.inl h₁.2
      · exact Or.inr ⟨h₁.1, h₁.2.2⟩
  | zwrite data ok ok' =>
      have hz : CompactionFree (ksBufferZero (ksBufferWrite b data ok).1) data.length := by
        simp only [FifoCaller, CompactingCaller, CompactionFree] at hc ⊢
        simp [ksBufferZero]; omega
      simp only [Op.apply, ksBufferZwrite, Op.FifoStep]
      rcases (ksBufferWrite_live ok hl hc).2 with h₁ | h₁
      · split
        · have hd : data = [] := by simpa using show data.length = 0 by omega
          have hq : live b = [] := by rw [← List.length_eq_zero, live_length]; omega
          subst hd
          simp [hq]
        · exact Or.inl h₁.2
      · rw [if_pos h₁.2.1]
        rcases (ksBufferWrite_live ok' (ksBufferZero_layout _) hz).2 with h₂ | h₂
        · exact Or.inr ⟨h₁.1, Or.inl (by simp [h₂.2])⟩
        · exact Or.inr ⟨h₁.1, Or.inr ⟨h₂.1, by simp [h₂.2.2]⟩⟩
  | read n => exact (ksBufferRead_live b n).2
  | toss n => exact ksBufferToss_live b n
  | readPacket n => exact ⟨_, (ksBufferReadPacket_live b n).symm⟩
  | setLoops k => rfl
  | zero => rfl
  | readLoop n | seek n => exact hc.elim

theorem fifo_simulation_write :
    (Op.write [99, 100] true).FifoStep (live (runOps (newBuffer 0 2 0) [.write [97, 98] true, .read 1]))
      (live ((Op.write [99, 100] true).apply (runOps (newBuffer 0 2 0) [.write [97, 98] true, .read 1]))) :=
  fifo_simulation (Reach.init.runOps (by decide)) _ (by decide)

/-! ## The bytes a run hands over -/

/-- Callers that write compaction-free, read, and call read-loop only where it does not replay. -/
def StreamCaller (b : Buffer) : Op → Prop
  | .write data _ => CompactionFree b data.length
  | .read _ | .readPacket _ | .setLoops _ => True
  | .readLoop n => ¬ Replays b n
  | .zwrite .. | .seek _ | .toss _ | .zero => False

instance : (b : Buffer) → (op : Op) → Decidable (StreamCaller b op)
  | b, .write data _ => inferInstanceAs (Decidable (CompactionFree b data.length))
  | _, .read _ | _, .readPacket _ | _, .setLoops _ => isTrue trivial
  | b, .readLoop n => inferInstanceAs (Decidable (¬ Replays b n))
  | _, .zwrite .. | _, .seek _ | _, .toss _ | _, .zero => isFalse id

theorem Op.transcript_apply {b : Buffer} (op : Op) (hl : Layout b) (hc : StreamCaller b op) :
    op.output b ++ live (op.apply b) = live b ++ op.input b ∧ Layout (op.apply b) := by
  cases op with
  | write data ok =>
      refine ⟨?_, (ksBufferWrite_live ok hl hc).1⟩
      simp only [Op.output, Op.apply, Op.input, List.nil_append]
      rcases (ksBufferWrite_live ok hl hc).2 with ⟨hr, hlv⟩ | ⟨-, hr, hlv⟩
      · by_cases hd : data = []
        · subst hd; simp [hlv]
        · rw [hlv, hr, if_neg]
          have := List.length_pos.2 hd
          omega
      · rw [hlv, hr, if_pos rfl, List.append_nil]
  | read n =>
      refine ⟨?_, ksBufferRead_layout n hl⟩
      simp only [Op.output, Op.apply, Op.input, (ksBufferRead_live b n).1, (ksBufferRead_live b n).2,
        List.take_append_drop, List.append_nil]
  | readPacket n =>
      refine ⟨?_, ksBufferRead_layout _ hl⟩
      simp only [Op.output, Op.apply, Op.input, ksBufferReadPacket_live, List.append_nil]
  | readLoop n =>
      refine ⟨by simp only [Op.output, Op.apply, Op.input, (ksBufferReadLoop_live_of_not_replays hc).1,
        List.append_nil], ?_⟩
      simp only [Op.apply, ksBufferReadLoop_of_not_replays hc]
      exact ksBufferRead_layout n hl
  | setLoops k => exact ⟨by simp [Op.output, Op.input, Op.apply, ksBufferSetLoops, live], hl.1, hl.2⟩
  | zwrite data ok ok' | seek n | toss n | zero => exact hc.elim

/-- A run of such a caller loses, duplicates and reorders no byte. -/
theorem runOutput_append_live {b : Buffer} (hl : Layout b) (ops : List Op)
    (h : RunFollows StreamCaller b ops) :
    runOutput b ops ++ live (runOps b ops) = live b ++ runInput b ops := by
  induction ops generalizing b with
  | nil => simp [runOutput, runOps, runInput]
  | cons op ops ih =>
      obtain ⟨hstep, hl'⟩ := op.transcript_apply hl h.2.1
      rw [runOutput, runOps, runInput, List.append_assoc, ih hl' h.2.2, ← List.append_assoc, hstep,
        List.append_assoc]

theorem runOutput_append_live_fresh :
    let ops : List Op := [.write [97, 98] true, .read 1, .write [99, 100, 101] true, .readPacket 8]
    runOutput (newBuffer 0 4 0) ops ++ live (runOps (newBuffer 0 4 0) ops) =
      live (newBuffer 0 4 0) ++ runInput (newBuffer 0 4 0) ops :=
  runOutput_append_live ⟨rfl, Nat.zero_le _⟩ _ (by decide)

/-- A compaction-free write keeps the packets already complete in the live bytes. -/
theorem ksBufferWrite_keeps_packets {b : Buffer} {data : List UInt8} (ok : Bool) (hl : Layout b)
    (hc : CompactionFree b data.length) :
    livePackets (live b) <+: livePackets (live (ksBufferWrite b data ok).1) := by
  rcases (ksBufferWrite_live ok hl hc).2 with ⟨-, h⟩ | ⟨-, -, h⟩
  · rw [h]; exact livePackets_prefix_append _ _
  · rw [h]

theorem ksBufferWrite_keeps_packets_second :
    livePackets (live (ksBufferWrite (newBuffer 0 6 0) [97, 10, 10, 98, 10] true).1) <+:
        livePackets (live (ksBufferWrite (ksBufferWrite (newBuffer 0 6 0) [97, 10, 10, 98, 10] true).1
          [10] true).1) ∧
      livePackets (live (ksBufferWrite (ksBufferWrite (newBuffer 0 6 0) [97, 10, 10, 98, 10] true).1
          [10] true).1) = [[97, 10, 10], [98, 10, 10]] :=
  ⟨ksBufferWrite_keeps_packets true ⟨by decide, by decide⟩ (Or.inl rfl), by decide⟩

/-! ## Writes into a fresh buffer -/

/-- `rec` fills the block from `data` on, all of it live. -/
structure Recorded (b : Buffer) (rec : List UInt8) : Prop where
  head_eq : b.head = 0
  used_eq : b.used = rec.length
  actuallyUsed_eq : b.actuallyUsed = rec.length
  slice_eq : slice b.mem 0 rec.length = rec
  in_block : rec.length ≤ b.datalen

section Record

variable {b : Buffer} {rec : List UInt8}

theorem compactStep_recorded (n : Nat) (h : Recorded b rec) :
    Recorded (compactStep b n) rec ∧ (compactStep b n).mem = b.mem := by
  obtain ⟨h0, hu, ha, hs, hd⟩ := h
  unfold compactStep
  split
  · refine ⟨⟨rfl, hu, hu, ?_, hd⟩, ?_⟩ <;> simp only [h0, memmove_self, hs]
  · exact ⟨⟨h0, hu, ha, hs, hd⟩, rfl⟩

theorem storeStep_recorded (data : List UInt8) (h : Recorded b rec)
    (hfit : b.used + data.length ≤ b.datalen) : Recorded (storeStep b data).1 (rec ++ data) := by
  obtain ⟨h0, hu, ha, hs, -⟩ := h
  rw [storeStep_of_fits data hfit]
  refine ⟨h0, by simp [hu], by simp [ha], ?_, by simp only [List.length_append]; omega⟩
  simpa only [h0, hu, Nat.zero_add, List.length_append, hs] using slice_memcpy_append b.mem 0 rec.length data

theorem ksBufferWrite_recorded (data : List UInt8) (h : Recorded b rec) :
    Recorded (ksBufferWrite b data true).1 (rec ++ data) := by
  by_cases hd : data = []
  · subst hd; simpa using h
  have hc := (compactStep_recorded data.length h).1
  rcases ksBufferWrite_cases b data true hd with ⟨hw, hfit⟩ | ⟨hw, hfull, -⟩ | ⟨-, -, hok⟩
  · rw [hw]
    exact storeStep_recorded data hc (by simpa using hfit)
  · rw [hw]
    have := hc.in_block
    have := hc.used_eq
    exact storeStep_recorded data ⟨rfl, hc.used_eq, hc.actuallyUsed_eq, hc.slice_eq,
      by simp only [grown]; omega⟩ (by simp only [grown]; omega)
  · exact absurd hok (by decide)

theorem runOps_writes_recorded (chunks : List (List UInt8)) (h : Recorded b rec) :
    Recorded (runOps b (chunks.map fun data => .write data true)) (rec ++ chunks.flatten) := by
  induction chunks generalizing b rec with
  | nil => simpa [runOps] using h
  | cons data chunks ih =>
      simpa only [List.map_cons, runOps, Op.apply, List.flatten_cons, List.append_assoc]
        using ih (ksBufferWrite_recorded data h)


theorem ksBufferWrite_fresh (data : List UInt8) (ok : Bool) (h : Recorded b rec)
    (hz : ∀ i, rec.length ≤ i → b.mem i = 0) (hfit : rec.length + data.length ≤ b.datalen) :
    Recorded (ksBufferWrite b data ok).1 (rec ++ data) ∧
      (∀ i, (rec ++ data).length ≤ i → (ksBufferWrite b data ok).1.mem i = 0) ∧
      (ksBufferWrite b data ok).1.datalen = b.datalen := by
  by_cases hd : data = []
  · subst hd; simpa using ⟨h, hz⟩
  obtain ⟨hc, hmem⟩ := compactStep_recorded data.length h
  have hfit' : (compactStep b data.length).used + data.length ≤ (compactStep b data.length).datalen := by
    simpa [h.used_eq] using hfit
  rw [ksBufferWrite_of_fits data ok hd (by rw [h.used_eq]; exact hfit)]
  refine ⟨storeStep_recorded data hc hfit', fun i hi => ?_, by rw [storeStep_datalen, compactStep_datalen]⟩
  rw [storeStep_of_fits data hfit']
  simp only [List.length_append] at hi
  dsimp only
  rw [memcpy_of_le (by rw [hc.head_eq, hc.used_eq]; omega), hmem, hz i (by omega)]

theorem runOps_writes_fresh (chunks : List (List UInt8 × Bool)) (h : Recorded b rec)
    (hz : ∀ i, rec.length ≤ i → b.mem i = 0)
    (hfit : (rec ++ (chunks.map Prod.fst).flatten).length ≤ b.datalen) :
    Recorded (runOps b (chunks.map fun c => .write c.1 c.2)) (rec ++ (chunks.map Prod.fst).flatten) ∧
      (∀ i, (rec ++ (chunks.map Prod.fst).flatten).length ≤ i →
        (runOps b (chunks.map fun c => .write c.1 c.2)).mem i = 0) ∧
      (runOps b (chunks.map fun c => .write c.1 c.2)).datalen = b.datalen := by
  induction chunks generalizing b rec with
  | nil => simpa [runOps] using ⟨h, hz⟩
  | cons c chunks ih =>
      simp only [List.map_cons, List.flatten_cons, List.length_append] at hfit
      obtain ⟨hr, hz', hdl⟩ := ksBufferWrite_fresh c.1 c.2 h hz (by omega)
      have := ih hr hz' (by simp only [List.length_append, hdl]; omega)
      simpa only [List.map_cons, runOps, Op.apply, List.flatten_cons, List.append_assoc, hdl] using this

end Record

/-- Writes that fit a fresh block, whatever each `realloc` would do, lay their bytes out
from `data` and leave the `memset` zero just past them. -/
theorem fresh_writes (blocksize startLen maxLen : Nat) (chunks : List (List UInt8 × Bool))
    (hfit : (chunks.map Prod.fst).flatten.length < startLen) :
    live (runOps (newBuffer blocksize startLen maxLen) (chunks.map fun c => .write c.1 c.2)) =
        (chunks.map Prod.fst).flatten ∧
      (runOps (newBuffer blocksize startLen maxLen) (chunks.map fun c => .write c.1 c.2)).datalen =
        startLen ∧
      (runOps (newBuffer blocksize startLen maxLen) (chunks.map fun c => .write c.1 c.2)).head +
          (runOps (newBuffer blocksize startLen maxLen) (chunks.map fun c => .write c.1 c.2)).used <
        startLen ∧
      (runOps (newBuffer blocksize startLen maxLen) (chunks.map fun c => .write c.1 c.2)).mem
        ((runOps (newBuffer blocksize startLen maxLen) (chunks.map fun c => .write c.1 c.2)).head +
          (runOps (newBuffer blocksize startLen maxLen) (chunks.map fun c => .write c.1 c.2)).used) = 0 := by
  obtain ⟨hr, hz, hdl⟩ := runOps_writes_fresh chunks
    (⟨rfl, rfl, rfl, rfl, Nat.zero_le _⟩ : Recorded (newBuffer blocksize startLen maxLen) [])
    (fun _ _ => rfl) (by simpa [newBuffer] using hfit.le)
  rw [List.nil_append] at hr hz
  refine ⟨by rw [live, hr.head_eq, hr.used_eq, hr.slice_eq], hdl, by rw [hr.head_eq, hr.used_eq]; omega,
    hz _ (by rw [hr.head_eq, hr.used_eq, Nat.zero_add])⟩

theorem fresh_writes_header :
    let b := runOps (newBuffer 0 16 0)
      ([([65, 58, 32], false), ([49, 13, 10, 13, 10], true)].map fun c => .write c.1 c.2)
    live b = [65, 58, 32, 49, 13, 10, 13, 10] ∧ b.datalen = 16 ∧ b.head + b.used < 16 ∧
      b.mem (b.head + b.used) = 0 :=
  fresh_writes 0 16 0 _ (by decide)

/-! ## A run where `max_len` blocks the compaction -/

/-- A write that `max_len` keeps from compacting copies its last byte past the block. -/
theorem ksBufferWrite_past_block :
    Reachable (runOps (newBuffer 0 4 1) [.write [97] true, .read 1]) ∧
      ¬ Layout (runOps (newBuffer 0 4 1) [.write [97] true, .read 1,
        .write [119, 120, 121, 122] true]) ∧
      (runOps (newBuffer 0 4 1) [.write [97] true, .read 1,
        .write [119, 120, 121, 122] true]).mem 4 = 122 :=
  ⟨reachable_runOps (by decide), fun h => absurd h.in_block (by decide), by decide⟩

/-- A growth that `max_len` keeps from compacting resets `head` and loses the live bytes. -/
theorem ksBufferWrite_growth_drops_live :
    Reachable (runOps (newBuffer 0 2 1) [.write [97] true, .write [98] true, .read 1]) ∧
      live (runOps (newBuffer 0 2 1) [.write [97] true, .write [98] true, .read 1]) = [98] ∧
      live (runOps (newBuffer 0 2 1) [.write [97] true, .write [98] true, .read 1,
        .write [99, 100] true]) = [97, 99, 100] ∧
      (ksBufferWrite (runOps (newBuffer 0 2 1) [.write [97] true, .write [98] true, .read 1])
        [99, 100] false).2 = 0 ∧
      live (runOps (newBuffer 0 2 1) [.write [97] true, .write [98] true, .read 1,
        .write [99, 100] false]) = [97] :=
  ⟨reachable_runOps (by decide), by decide, by decide, by decide, by decide⟩

end KsBuffer
