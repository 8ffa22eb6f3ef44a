import KsBuffer.Queue

/-! # Block size and free space

How large the block grows and what `ks_buffer_freespace` reports.  A write calls
`realloc` only when the `used` live bytes and the new ones do not fit in `datalen`,
however much of the tail consumed bytes occupy, and grows by the larger of the write
and `blocksize`; so a producer that keeps `used + n` within a bound keeps the block
within that bound plus one growth step.  A write returns 0 only when that `realloc`
fails, and `ks_buffer_zwrite` then stores the bytes in the zeroed block whenever they
fit in it.  With `max_len` set, callers that write at
most `ks_buffer_freespace()` bytes keep `used <= max_len` as long as nothing resets
`used` from `actually_used`, which `ks_buffer_seek` and a replaying
`ks_buffer_read_loop` both do; with `max_len <= start_len` such a buffer never grows
and none of its writes fails.
-/

namespace KsBuffer

/-! ## Growth -/

theorem ksBufferWrite_datalen {b : Buffer} {data : List UInt8} (ok : Bool) (hd : data ≠ []) :
    (ksBufferWrite b data ok).1.datalen =
      if b.datalen < b.used + data.length ∧ ok = true then
        max (b.datalen + data.length) (b.datalen + b.blocksize)
      else b.datalen := by
  rcases ksBufferWrite_cases b data ok hd with ⟨hw, hfit⟩ | ⟨hw, hfull, rfl⟩ | ⟨hw, hfull, rfl⟩ <;>
    rw [hw]
  · rw [if_neg (by omega), storeStep_datalen]; simp
  · rw [if_pos ⟨hfull, rfl⟩, storeStep_datalen]
    simp only [grown, compactStep_datalen, compactStep_blocksize]
  · simp

/-- A producer that keeps `used + n` within `bound` and writes at most `chunk` bytes. -/
def BoundedWriter (bound chunk : Nat) (b : Buffer) : Op → Prop
  | .write data _ | .zwrite data _ _ => b.used + data.length ≤ bound ∧ data.length ≤ chunk
  | _ => True

instance (bound chunk : Nat) : (b : Buffer) → (op : Op) → Decidable (BoundedWriter bound chunk b op)
  | _, .write .. | _, .zwrite .. => inferInstanceAs (Decidable (_ ∧ _))
  | _, .read _ | _, .readLoop _ | _, .setLoops _ | _, .seek _ | _, .toss _ | _, .readPacket _
  | _, .zero => isTrue trivial

theorem ksBufferWrite_datalen_le (b : Buffer) (data : List UInt8) (ok : Bool)
    {bound chunk bs m : Nat} (hb : b.used + data.length ≤ bound) (hn : data.length ≤ chunk)
    (hbs : b.blocksize = bs) (hm : b.datalen ≤ max m (bound + max chunk bs)) :
    (ksBufferWrite b data ok).1.datalen ≤ max m (bound + max chunk bs) := by
  by_cases hd : data = []
  · subst hd; exact hm
  rw [ksBufferWrite_datalen ok hd]
  split
  · omega
  · exact hm

/-- A write grows the block only when `used + n > datalen`, by `max(n, blocksize)`. -/
theorem ksBufferWrite_growth :
    (∀ (b : Buffer) (data : List UInt8) (ok : Bool), data ≠ [] →
      (b.used + data.length ≤ b.datalen → ksBufferWrite b data true = ksBufferWrite b data false) ∧
      (b.datalen < b.used + data.length → (ksBufferWrite b data false).2 = 0) ∧
      (ksBufferWrite b data ok).1.datalen =
        if b.datalen < b.used + data.length ∧ ok = true then
          max (b.datalen + data.length) (b.datalen + b.blocksize)
        else b.datalen) ∧
    ∀ (blocksize startLen maxLen bound chunk : Nat) (b : Buffer),
      Reach (BoundedWriter bound chunk) (newBuffer blocksize startLen maxLen) b →
        b.datalen ≤ max startLen (bound + max chunk blocksize) := by
  refine ⟨fun b data ok hd => ⟨fun hfit => ?_, fun hfull => ?_, ksBufferWrite_datalen ok hd⟩, ?_⟩
  · rw [ksBufferWrite_of_fits data true hd hfit, ksBufferWrite_of_fits data false hd hfit]
  · rw [ksBufferWrite_of_full data hd hfull]
  · intro blocksize startLen maxLen bound chunk b h
    refine (h.invariant (fun b => b.blocksize = blocksize ∧
        b.datalen ≤ max startLen (bound + max chunk blocksize)) ⟨rfl, le_max_left _ _⟩
      fun b op ⟨hbs, hm⟩ _ hc => ⟨(op.config_apply b).1.trans hbs, ?_⟩).2
    cases op with
    | write data ok => exact ksBufferWrite_datalen_le b data ok hc.1 hc.2 hbs hm
    | zwrite data ok ok' =>
        have h₁ := ksBufferWrite_datalen_le b data ok hc.1 hc.2 hbs hm
        simp only [Op.apply, ksBufferZwrite]
        split
        · -- the second write starts from the zeroed state of the first
          exact ksBufferWrite_datalen_le _ data ok' (show 0 + data.length ≤ bound by have := hc.1; omega)
            hc.2 ((ksBufferWrite_blocksize b data ok).trans hbs) h₁
        · exact h₁
    | _ => rw [Op.datalen_apply] <;> first | exact hm | simp

theorem ksBufferWrite_growth_six_bytes :
    let b := runOps (newBuffer 0 4 0) [.write [1, 2, 3, 4, 5, 6] true]
    Reach (BoundedWriter 8 8) (newBuffer 0 4 0) b ∧ b.datalen = 10 ∧ b.datalen ≤ max 4 (8 + max 8 0) :=
  ⟨Reach.init.runOps (by decide), by decide,
    ksBufferWrite_growth.2 0 4 0 8 8 _ (Reach.init.runOps (by decide))⟩

/-! ## Failed writes and `ks_buffer_zwrite` -/

theorem ksBufferWrite_ret (b : Buffer) (data : List UInt8) (ok : Bool) (hd : data ≠ [])
    (hu : b.used ≤ b.datalen) :
    (ksBufferWrite b data ok).2 = 0 ∧ b.datalen < b.used + data.length ∧ ok = false ∧
        (ksBufferWrite b data ok).1.datalen = b.datalen ∨
      (ksBufferWrite b data ok).2 = (ksBufferWrite b data ok).1.used ∧
        (ksBufferWrite b data ok).1.used = b.used + data.length := by
  rcases ksBufferWrite_cases b data ok hd with ⟨hw, hfit⟩ | ⟨hw, hfull, rfl⟩ | ⟨hw, hfull, rfl⟩
  · rw [hw, storeStep_of_fits data (by simpa using hfit)]
    exact Or.inr ⟨rfl, by simp⟩
  · rw [hw, storeStep_of_fits data (by simp only [grown, compactStep_used, compactStep_datalen]; omega)]
    exact Or.inr ⟨rfl, by simp [grown]⟩
  · rw [hw]
    exact Or.inl ⟨rfl, hfull, rfl, by simp⟩

/-- A write returns 0 exactly when it must grow and its `realloc` fails. -/
theorem ksBufferWrite_fails_iff (b : Buffer) (data : List UInt8) (ok : Bool) (hd : data ≠ [])
    (hu : b.used ≤ b.datalen) :
    ((ksBufferWrite b data ok).2 = 0 ↔ b.datalen < b.used + data.length ∧ ok = false) ∧
      ((ksBufferWrite b data ok).2 ≠ 0 → (ksBufferWrite b data ok).2 = b.used + data.length ∧
        (ksBufferWrite b data ok).1.used = b.used + data.length) := by
  have hpos : 0 < data.length := List.length_pos.2 hd
  rcases ksBufferWrite_ret b data ok hd hu with ⟨h0, hfull, hok, -⟩ | ⟨hr, hu'⟩
  · exact ⟨⟨fun _ => ⟨hfull, hok⟩, fun _ => h0⟩, fun h => absurd h0 h⟩
  · refine ⟨⟨fun h => by omega, fun ⟨hfull, hok⟩ => ?_⟩, fun _ => ⟨hr.trans hu', hu'⟩⟩
    -- a write that cannot fit and cannot grow returns 0, not `used + n`
    subst hok
    rw [ksBufferWrite_of_full data hd hfull] at hr ⊢

theorem ksBufferWrite_fails_iff_full :
    let b := (ksBufferWrite (newBuffer 0 2 0) [97, 98] true).1
    ((ksBufferWrite b [99, 100] false).2 = 0 ↔ b.datalen < b.used + [99, 100].length ∧ false = false) ∧
      ((ksBufferWrite b [99, 100] false).2 ≠ 0 →
        (ksBufferWrite b [99, 100] false).2 = b.used + [99, 100].length ∧
          (ksBufferWrite b [99, 100] false).1.used = b.used + [99, 100].length) :=
  ksBufferWrite_fails_iff _ _ _ (by decide) (by decide)

/-- Callers that write at most `ks_buffer_freespace()` bytes at a time. -/
def FreespaceCaller (b : Buffer) : Op → Prop
  | .write data _ | .zwrite data _ _ => data.length ≤ ksBufferFreespace b
  | _ => True

instance : (b : Buffer) → (op : Op) → Decidable (FreespaceCaller b op)
  | b, .write data _ | b, .zwrite data _ _ =>
      inferInstanceAs (Decidable (data.length ≤ ksBufferFreespace b))
  | _, .read _ | _, .readLoop _ | _, .setLoops _ | _, .seek _ | _, .toss _ | _, .readPacket _
  | _, .zero => isTrue trivial

/-- `FreespaceCaller`s that never seek and never let read-loop replay. -/
def SteadyCaller (b : Buffer) : Op → Prop
  | .seek _ => False
  | .readLoop n => ¬ Replays b n
  | op => FreespaceCaller b op

instance : (b : Buffer) → (op : Op) → Decidable (SteadyCaller b op)
  | _, .seek _ => isFalse id
  | b, .readLoop n => inferInstanceAs (Decidable (¬ Replays b n))
  | b, .write data ok => inferInstanceAs (Decidable (FreespaceCaller b (.write data ok)))
  | b, .zwrite data ok ok' => inferInstanceAs (Decidable (FreespaceCaller b (.zwrite data ok ok')))
  | _, .read _ | _, .setLoops _ | _, .toss _ | _, .readPacket _ | _, .zero => isTrue trivial

/-- Steady callers keep `used <= max_len`, so `ks_buffer_freespace` is exact. -/
theorem used_le_maxLen {blocksize startLen maxLen : Nat} {b : Buffer} (hml : 0 < maxLen)
    (h : Reach SteadyCaller (newBuffer blocksize startLen maxLen) b) :
    b.used ≤ b.maxLen ∧ ksBufferFreespace b + b.used = b.maxLen := by
  have hinv := h.invariant (fun b => b.maxLen = maxLen ∧ b.used ≤ maxLen) ⟨rfl, Nat.zero_le _⟩
    fun b op ⟨hm, hu⟩ _ hc => ?_
  · obtain ⟨hm, hu⟩ := hinv
    refine ⟨hm ▸ hu, ?_⟩
    simp only [ksBufferFreespace, hm, hml.ne', ne_eq, not_false_eq_true, if_true]
    omega
  refine ⟨(op.config_apply b).2.trans hm, ?_⟩
  have hfree : ksBufferFreespace b = maxLen - b.used := by
    simp [ksBufferFreespace, hm, hml.ne']
  cases op with
  | write data ok =>
      have hn : data.length ≤ maxLen - b.used := hfree ▸ hc
      rcases ksBufferWrite_used b data ok with h' | h' <;> simp only [Op.apply, h'] <;> omega
  | zwrite data ok ok' =>
      have hn : data.length ≤ maxLen - b.used := hfree ▸ hc
      simp only [Op.apply, ksBufferZwrite]
      split
      · rcases ksBufferWrite_used (ksBufferZero (ksBufferWrite b data ok).1) data ok' with h' | h' <;>
          rw [h'] <;> simp only [ksBufferZero] <;> omega
      · rcases ksBufferWrite_used b data ok with h' | h' <;> simp only [h'] <;> omega
  | read n | readPacket n => exact (ksBufferRead_used_le b _).trans hu
  | readLoop n =>
      simp only [Op.apply, ksBufferReadLoop_of_not_replays hc]
      exact (ksBufferRead_used_le b _).trans hu
  | toss n => simp only [Op.apply, ksBufferToss_eq]; omega
  | seek n => exact hc.elim
  | setLoops k => exact hu
  | zero => exact Nat.zero_le _

theorem used_le_maxLen_steady_run :
    Reach SteadyCaller (newBuffer 0 8 4) (runOps (newBuffer 0 8 4)
        [.write [97, 98, 99, 100] true, .read 4, .write [101, 102, 103, 104] true]) ∧
      (runOps (newBuffer 0 8 4)
        [.write [97, 98, 99, 100] true, .read 4, .write [101, 102, 103, 104] true]).used ≤ 4 :=
  ⟨Reach.init.runOps (by decide), (used_le_maxLen (by decide) (Reach.init.runOps (by decide))).1⟩

/-- With `abcd` written and read and `efgh` written behind them, `ks_buffer_seek(0)` and
a replaying `ks_buffer_read_loop(5)` both take `used` past `max_len` 4. -/
theorem used_gt_maxLen_after_reset :
    let seek : Buffer := runOps (newBuffer 0 8 4)
      [.write [97, 98, 99, 100] true, .read 4, .write [101, 102, 103, 104] true, .seek 0]
    let replay : Buffer := runOps (newBuffer 0 8 4)
      [.write [97, 98, 99, 100] true, .read 4, .write [101, 102, 103, 104] true, .setLoops 1, .readLoop 5]
    ¬ (∀ (blocksize startLen maxLen : Nat) (b : Buffer), 0 < startLen → 0 < maxLen →
        Reach FreespaceCaller (newBuffer blocksize startLen maxLen) b → b.used ≤ b.maxLen) ∧
      Reach FreespaceCaller (newBuffer 0 8 4) seek ∧ seek.used = 8 ∧
      Reach FreespaceCaller (newBuffer 0 8 4) replay ∧ replay.used = 7 := by
  intro seek replay
  have hseek : Reach FreespaceCaller (newBuffer 0 8 4) seek := Reach.init.runOps (by decide)
  exact ⟨fun h => absurd (h 0 8 4 seek (by decide) (by decide) hseek) (by decide), hseek, by decide,
    Reach.init.runOps (by decide), by decide⟩

/-! ## A bounded buffer -/

/-- What a bounded buffer keeps: its `start_len` block, its layout and `used <= max_len`. -/
structure Bounded (startLen maxLen : Nat) (b : Buffer) : Prop where
  maxLen_eq : b.maxLen = maxLen
  datalen_eq : b.datalen = startLen
  layout : Layout b
  used_le : b.used ≤ maxLen

section Bounded

variable {startLen maxLen : Nat} {b : Buffer}

theorem ksBufferWrite_bounded (hml : 0 < maxLen) (hsl : maxLen ≤ startLen)
    (h : Bounded startLen maxLen b) (data : List UInt8) (ok : Bool) (hn : data.length ≤ ksBufferFreespace b) :
    Bounded startLen maxLen (ksBufferWrite b data ok).1 ∧
      (data ≠ [] → (ksBufferWrite b data ok).2 = b.used + data.length) := by
  have hfree : ksBufferFreespace b = maxLen - b.used := by
    simp [ksBufferFreespace, h.maxLen_eq, hml.ne']
  have := h.used_le
  have := h.datalen_eq
  rw [hfree] at hn
  have hfit : b.used + data.length ≤ b.datalen := by omega
  have hc : CompactionFree b data.length := Or.inr (by rw [h.maxLen_eq]; omega)
  refine ⟨⟨by simp [h.maxLen_eq], ?_, (ksBufferWrite_live ok h.layout hc).1, ?_⟩, fun hd => ?_⟩
  · by_cases hd : data = []
    · subst hd; exact h.datalen_eq
    · rw [ksBufferWrite_datalen ok hd, if_neg (by omega), h.datalen_eq]
  · rcases ksBufferWrite_used b data ok with h' | h' <;> rw [h'] <;> omega
  · rcases ksBufferWrite_ret b data ok hd (by omega) with ⟨-, hfull, -⟩ | ⟨hr, hu⟩
    · omega
    · exact hr.trans hu

theorem Op.bounded_apply (hml : 0 < maxLen) (hsl : maxLen ≤ startLen) (op : Op)
    (h : Bounded startLen maxLen b) (hc : SteadyCaller b op) : Bounded startLen maxLen (op.apply b) := by
  have hzero : Bounded startLen maxLen (ksBufferZero b) :=
    ⟨h.maxLen_eq, h.datalen_eq, ksBufferZero_layout b, Nat.zero_le _⟩
  have hread : ∀ n, Bounded startLen maxLen (ksBufferRead b n).1 := fun n =>
    ⟨by rw [ksBufferRead_fst]; exact h.maxLen_eq, by rw [ksBufferRead_fst]; exact h.datalen_eq,
      ksBufferRead_layout n h.layout, (ksBufferRead_used_le b n).trans h.used_le⟩
  cases op with
  | write data ok => exact (ksBufferWrite_bounded hml hsl h data ok hc).1
  | zwrite data ok ok' =>
      obtain ⟨hw, hret⟩ := ksBufferWrite_bounded hml hsl h data ok hc
      simp only [Op.apply, ksBufferZwrite]
      split
      · -- only an empty write returns 0 here, and the second one writes nothing
        rename_i h0
        obtain rfl : data = [] := by
          by_contra hd; rw [hret hd] at h0; have := List.length_pos.2 hd; omega
        rw [ksBufferWrite_nil, ksBufferWrite_nil]
        exact hzero
      · exact hw
  | read n | readPacket n => exact hread _
  | readLoop n =>
      simp only [Op.apply, ksBufferReadLoop_of_not_replays hc]
      exact hread n
  | toss n =>
      have hl := ksBufferToss_layout n h.layout
      simp only [Op.apply, ksBufferToss_eq] at hl ⊢
      exact ⟨h.maxLen_eq, h.datalen_eq, hl, by have := h.used_le; dsimp only; omega⟩
  | seek n => exact hc.elim
  | setLoops k => exact ⟨h.maxLen_eq, h.datalen_eq, ⟨h.layout.1, h.layout.2⟩, h.used_le⟩
  | zero => exact hzero

end Bounded

/-- With `0 < max_len <= start_len` and a steady caller the block never grows and no write fails. -/
theorem bounded_buffer {blocksize startLen maxLen : Nat} {b : Buffer} (hml : 0 < maxLen)
    (hsl : maxLen ≤ startLen) (h : Reach SteadyCaller (newBuffer blocksize startLen maxLen) b) :
    b.datalen = startLen ∧ Layout b ∧ b.used ≤ maxLen ∧
      ∀ data ok, data ≠ [] → data.length ≤ ksBufferFreespace b →
        (ksBufferWrite b data ok).2 = b.used + data.length := by
  have hb : Bounded startLen maxLen b :=
    h.invariant _ ⟨rfl, rfl, ⟨rfl, Nat.zero_le _⟩, Nat.zero_le _⟩
      fun _ op hb _ hc => op.bounded_apply hml hsl hb hc
  exact ⟨hb.datalen_eq, hb.layout, hb.used_le,
    fun data ok hd hn => (ksBufferWrite_bounded hml hsl hb data ok hn).2 hd⟩

theorem bounded_buffer_steady_run :
    let b := runOps (newBuffer 0 8 4)
      [.write [97, 98, 99, 100] true, .read 4, .write [101, 102, 103, 104] false]
    b.datalen = 8 ∧ Layout b ∧ b.used ≤ 4 ∧
      ∀ data ok, data ≠ [] → data.length ≤ ksBufferFreespace b →
        (ksBufferWrite b data ok).2 = b.used + data.length :=
  bounded_buffer (by decide) (by decide) (Reach.init.runOps (by decide))

end KsBuffer
