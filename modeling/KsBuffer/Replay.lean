import KsBuffer.Capacity

/-! # Replay on underflow

`ks_buffer_read_loop` reads, and when the read comes short and `loops` is not 0,
rewinds `head` to `data`, restores `used` to `actually_used`, reads the rest of the
request from there and decrements `loops`.  Nothing else in the source reads or
writes `loops` but `ks_buffer_set_loops`.  So after `ks_buffer_set_loops(k)` a
nonnegative `k` allows exactly `k` replays, while a negative `k` is counted down like
any other: it allows `2^31 + k` replays before the decrement leaves `int`.  The
model keeps `loops` as an unbounded integer, so what it proves for `loops < 0` is stated
for runs that keep the decrements within `int`.  The
returned count is that of the second read only; no read copies more than it was asked
for.  Reads never touch the block or `actually_used`, so successive calls hand out the
live bytes and then the block's first `actually_used` bytes again and again, each call
starting where the last stopped.
-/

namespace KsBuffer

/-! ## One call -/

theorem ksBufferReadLoop_loops (b : Buffer) (n : Nat) :
    (ksBufferReadLoop b n).1.loops = if Replays b n then b.loops - 1 else b.loops := by
  split_ifs with hr
  · rw [ksBufferReadLoop_replay hr]
  · simp [ksBufferReadLoop_of_not_replays hr, ksBufferRead_eq]

theorem ksBufferReadLoop_loops_ge (b : Buffer) (n : Nat) :
    b.loops - 1 ≤ (ksBufferReadLoop b n).1.loops ∧ (0 ≤ b.loops → 0 ≤ (ksBufferReadLoop b n).1.loops) := by
  rw [ksBufferReadLoop_loops]
  split_ifs with hr
  · exact ⟨le_rfl, fun h => by have := hr.2; omega⟩
  · exact ⟨by omega, id⟩

theorem runOps_readLoops_loops_ge (ns : List Nat) (b : Buffer) :
    b.loops - ns.length ≤ (runOps b (ns.map Op.readLoop)).loops ∧
      (0 ≤ b.loops → 0 ≤ (runOps b (ns.map Op.readLoop)).loops) := by
  induction ns generalizing b with
  | nil => simp [runOps]
  | cons n ns ih =>
      obtain ⟨h1, h2⟩ := ksBufferReadLoop_loops_ge b n
      obtain ⟨ih1, ih2⟩ := ih (ksBufferReadLoop b n).1
      simp only [List.map_cons, runOps, Op.apply, List.length_cons, Nat.cast_succ]
      exact ⟨by omega, fun h => ih2 (h2 h)⟩

theorem Op.loops_apply (op : Op) (b : Buffer)
    (hr : ∀ n, op ≠ .readLoop n) (hs : ∀ k, op ≠ .setLoops k) : (op.apply b).loops = b.loops := by
  cases op with
  | readLoop n => exact absurd rfl (hr n)
  | setLoops k => exact absurd rfl (hs k)
  | write data ok => simp [Op.apply]
  | zwrite data ok ok' =>
      simp only [Op.apply, ksBufferZwrite]
      split <;> simp [ksBufferZero]
  | seek n =>
      simp only [Op.apply, ksBufferSeek]
      split <;> simp
  | read n | readPacket n => simp only [Op.apply, ksBufferReadPacket, ksBufferRead_fst]
  | toss n => simp only [Op.apply, ksBufferToss_eq]
  | zero => rfl

/-- With `loops` at 1 and `ab` live, `ks_buffer_read_loop(3)` writes `aba` but returns 1. -/
theorem ksBufferReadLoop_returns_replay_count :
    Reachable (runOps (newBuffer 0 2 0) [.setLoops 1, .write [97, 98] true]) ∧
      (ksBufferReadLoop (runOps (newBuffer 0 2 0) [.setLoops 1, .write [97, 98] true]) 3).2.1 =
        [97, 98, 97] ∧
      (ksBufferReadLoop (runOps (newBuffer 0 2 0) [.setLoops 1, .write [97, 98] true]) 3).2.2 = 1 :=
  ⟨reachable_runOps (by decide), by decide, by decide⟩

/-! ## What the reads copy -/

/-- No read copies, and `ks_buffer_read_loop` returns, more than the bytes asked for. -/
theorem reads_within_request (b : Buffer) (n : Nat) :
    (ksBufferRead b n).2.length ≤ n ∧ (ksBufferReadLoop b n).2.1.length ≤ n ∧
      (ksBufferReadLoop b n).2.2 ≤ n ∧ (ksBufferReadPacket b n).2.length ≤ n := by
  have hread : ∀ c m, (ksBufferRead c m).2.length = min m c.used := fun c m => by
    rw [ksBufferRead_eq, slice_length]
  have hloop : (ksBufferReadLoop b n).2.1.length ≤ n ∧ (ksBufferReadLoop b n).2.2 ≤ n := by
    by_cases hr : Replays b n
    · -- the first read took all `used` bytes, the second at most `n - used`
      have hu : b.used < n := by have := hr.1; rw [hread] at this; omega
      simp only [ksBufferReadLoop_replay hr, List.length_append, live_length, hread]
      omega
    · simp only [ksBufferReadLoop_of_not_replays hr, hread]
      omega
  obtain ⟨m, hm, hp⟩ := ksBufferReadPacket_eq_read b n
  exact ⟨by rw [hread]; omega, hloop.1, hloop.2, by rw [hp, hread]; omega⟩

/-! ## The looped stream -/

/-- The bytes a replay reads again: the first `actually_used` bytes of the block. -/
def loopBytes (b : Buffer) : List UInt8 := slice b.mem 0 b.actuallyUsed

/-- The bytes that successive `ks_buffer_read_loop` calls write to their `data`. -/
def loopStream : Buffer → List Nat → List UInt8
  | _, [] => []
  | b, n :: ns => (ksBufferReadLoop b n).2.1 ++ loopStream (ksBufferReadLoop b n).1 ns

section Call

variable {b : Buffer} {n : Nat}

theorem ksBufferReadLoop_frame (b : Buffer) (n : Nat) :
    (ksBufferReadLoop b n).1.mem = b.mem ∧ (ksBufferReadLoop b n).1.actuallyUsed = b.actuallyUsed := by
  by_cases hr : Replays b n
  · simp only [ksBufferReadLoop_replay hr, ksBufferRead_fst, and_self]
  · simp only [ksBufferReadLoop_of_not_replays hr, ksBufferRead_fst, and_self]

@[simp] theorem loopBytes_ksBufferReadLoop (b : Buffer) (n : Nat) :
    loopBytes (ksBufferReadLoop b n).1 = loopBytes b := by
  simp only [loopBytes, ksBufferReadLoop_frame]

theorem ksBufferReadLoop_live_of_replays (h : Replays b n) :
    (ksBufferReadLoop b n).2.1 ++ live (ksBufferReadLoop b n).1 = live b ++ loopBytes b ∧
      (ksBufferReadLoop b n).1.loops = b.loops - 1 := by
  have hr := ksBufferRead_live { b with head := 0, used := b.actuallyUsed } (n - b.used)
  rw [ksBufferReadLoop_replay h]
  refine ⟨?_, rfl⟩
  change (live b ++ _) ++ live (ksBufferRead _ _).1 = _
  rw [hr.1, hr.2, List.append_assoc, List.take_append_drop]
  rfl

theorem ksBufferReadLoop_budget (m : Nat) (hm : Replays b n → 1 ≤ m) :
    (ksBufferReadLoop b n).2.1 ++ (live (ksBufferReadLoop b n).1 ++
        (List.replicate (if Replays b n then m - 1 else m) (loopBytes b)).flatten) =
      live b ++ (List.replicate m (loopBytes b)).flatten := by
  by_cases hr : Replays b n
  · obtain ⟨m, rfl⟩ : ∃ m', m = m' + 1 := ⟨m - 1, by have := hm hr; omega⟩
    rw [if_pos hr, Nat.add_sub_cancel, ← List.append_assoc, (ksBufferReadLoop_live_of_replays hr).1,
      List.replicate_succ, List.flatten_cons, List.append_assoc]
  · rw [if_neg hr, ← List.append_assoc, (ksBufferReadLoop_live_of_not_replays hr).1]

theorem ksBufferReadLoop_length (hn : n ≤ b.actuallyUsed) (m : Nat) (hm : Replays b n → 1 ≤ m)
    (h0 : b.loops = 0 → m = 0) :
    (ksBufferReadLoop b n).2.1.length = min n (live b ++ (List.replicate m (loopBytes b)).flatten).length := by
  by_cases hr : Replays b n
  · -- the replay adds the first `n - used` of the `actually_used >= n` bytes
    obtain ⟨m, rfl⟩ : ∃ m', m = m' + 1 := ⟨m - 1, by have := hm hr; omega⟩
    have hu := hr.1
    rw [ksBufferRead_length] at hu
    simp only [ksBufferReadLoop_replay hr, List.length_append, live_length, ksBufferRead_length,
      List.replicate_succ, List.flatten_cons, loopBytes, slice_length]
    omega
  · simp only [ksBufferReadLoop_of_not_replays hr, ksBufferRead_length, List.length_append, live_length]
    by_cases hs : (ksBufferRead b n).2.length < n
    · -- a short call that does not replay finds the counter, and so the budget, at 0
      rw [h0 (by by_contra h; exact hr ⟨hs, h⟩)]
      rw [ksBufferRead_length] at hs
      simp only [List.replicate_zero, List.flatten_nil, List.length_nil]
      omega
    · rw [ksBufferRead_length] at hs
      omega

end Call

theorem loopStream_prefix_of_le (ns : List Nat) (b : Buffer) (m : Nat)
    (hm : ns.length ≤ m ∨ 0 ≤ b.loops ∧ b.loops.toNat ≤ m) :
    loopStream b ns <+: live b ++ (List.replicate m (loopBytes b)).flatten := by
  induction ns generalizing b m with
  | nil => exact List.nil_prefix
  | cons n ns ih =>
      rw [List.length_cons] at hm
      have h1 : Replays b n → 1 ≤ m := fun hr => by have := hr.2; omega
      have hl := ksBufferReadLoop_loops b n
      have hm' : ns.length ≤ (if Replays b n then m - 1 else m) ∨
          0 ≤ (ksBufferReadLoop b n).1.loops ∧
            (ksBufferReadLoop b n).1.loops.toNat ≤ (if Replays b n then m - 1 else m) := by
        by_cases hr : Replays b n
        · have := h1 hr
          have := hr.2
          rw [if_pos hr] at hl ⊢
          rw [hl]
          rcases hm with hk | ⟨h0, hk⟩
          · exact Or.inl (by omega)
          · exact Or.inr ⟨by omega, by omega⟩
        · rw [if_neg hr] at hl ⊢
          rw [hl]
          exact hm.imp (fun h => by omega) id
      have := ih (ksBufferReadLoop b n).1 _ hm'
      rw [loopBytes_ksBufferReadLoop] at this
      rw [loopStream, ← ksBufferReadLoop_budget m h1]
      exact (List.prefix_append_right_inj _).2 this

/-- Read-loop calls hand out the live bytes, then `loopBytes` at most once per call. -/
theorem loopStream_prefix_replays (b : Buffer) (ns : List Nat) :
    loopStream b ns <+: live b ++ (List.replicate ns.length (loopBytes b)).flatten ∧
      (0 ≤ b.loops → loopStream b ns <+: live b ++ (List.replicate b.loops.toNat (loopBytes b)).flatten) :=
  ⟨loopStream_prefix_of_le ns b _ (Or.inl le_rfl), fun h => loopStream_prefix_of_le ns b _ (Or.inr ⟨h, le_rfl⟩)⟩

theorem loopStream_prefix_abc :
    let b := ksBufferSetLoops (ksBufferWrite (newBuffer 0 3 0) [97, 98, 99] true).1 2
    loopStream b [2, 2, 2, 2, 2] <+: live b ++ (List.replicate b.loops.toNat (loopBytes b)).flatten ∧
      loopStream b [2, 2, 2, 2, 2] = [97, 98, 99, 97, 98, 99, 97, 98, 99] :=
  ⟨(loopStream_prefix_replays _ _).2 (by decide), by decide⟩

theorem take_append_of_length_eq_min {xs ys : List UInt8} {n s : Nat}
    (h : xs.length = min n (xs ++ ys).length) : xs ++ ys.take s = (xs ++ ys).take (n + s) := by
  rw [List.length_append] at h
  by_cases hn : xs.length = n
  · rw [← hn, List.take_append]
  · obtain rfl : ys = [] := List.eq_nil_of_length_eq_zero (by omega)
    simp only [List.take_nil, List.append_nil]
    exact (List.take_of_length_le (by omega)).symm

theorem loopStream_eq_take (ns : List Nat) (b : Buffer) (m : Nat) (hn : ∀ n ∈ ns, n ≤ b.actuallyUsed)
    (hm : 0 ≤ b.loops ∧ m = b.loops.toNat ∨ b.loops < 0 ∧ ns.length ≤ m) :
    loopStream b ns = (live b ++ (List.replicate m (loopBytes b)).flatten).take ns.sum := by
  induction ns generalizing b m with
  | nil => simp [loopStream]
  | cons n ns ih =>
      rw [List.length_cons] at hm
      have h1 : Replays b n → 1 ≤ m := fun hr => by have := hr.2; omega
      have hl := ksBufferReadLoop_loops b n
      have hlen := ksBufferReadLoop_length (hn n (List.mem_cons_self _ _)) m h1 (by omega)
      have hm' : 0 ≤ (ksBufferReadLoop b n).1.loops ∧
            (if Replays b n then m - 1 else m) = (ksBufferReadLoop b n).1.loops.toNat ∨
          (ksBufferReadLoop b n).1.loops < 0 ∧ ns.length ≤ (if Replays b n then m - 1 else m) := by
        by_cases hr : Replays b n
        · have := hr.2
          rw [if_pos hr] at hl ⊢
          rw [hl]
          rcases hm with ⟨h0, rfl⟩ | ⟨h0, hk⟩
          · exact Or.inl ⟨by omega, by omega⟩
          · exact Or.inr ⟨by omega, by omega⟩
        · rw [if_neg hr] at hl ⊢
          rw [hl]
          exact hm.imp id fun h => ⟨h.1, by omega⟩
      have := ih (ksBufferReadLoop b n).1 _
        (fun k hk => (ksBufferReadLoop_frame b n).2 ▸ hn k (List.mem_cons_of_mem _ hk)) hm'
      rw [← ksBufferReadLoop_budget m h1] at hlen ⊢
      rw [loopStream, this, loopBytes_ksBufferReadLoop, List.sum_cons]
      exact take_append_of_length_eq_min hlen

/-- Calls of at most `actually_used` bytes each get all they ask for while replays remain. -/
theorem loopStream_exact (b : Buffer) (ns : List Nat) (hn : ∀ n ∈ ns, n ≤ b.actuallyUsed) :
    (0 ≤ b.loops →
        loopStream b ns = (live b ++ (List.replicate b.loops.toNat (loopBytes b)).flatten).take ns.sum) ∧
      (b.loops < 0 → intMin ≤ b.loops - ns.length →
        loopStream b ns = (live b ++ (List.replicate ns.length (loopBytes b)).flatten).take ns.sum ∧
          intMin ≤ (runOps b (ns.map Op.readLoop)).loops) :=
  ⟨fun h => loopStream_eq_take ns b _ hn (Or.inl ⟨h, rfl⟩),
    fun h hr => ⟨loopStream_eq_take ns b _ hn (Or.inr ⟨h, le_rfl⟩),
      hr.trans (runOps_readLoops_loops_ge ns b).1⟩⟩

theorem loopStream_exact_forever :
    let b := ksBufferSetLoops (ksBufferWrite (newBuffer 0 3 0) [97, 98, 99] true).1 (-1)
    b.loops < 0 ∧ intMin ≤ b.loops - [2, 2, 2, 2].length ∧
      loopStream b [2, 2, 2, 2] = [97, 98, 99, 97, 98, 99, 97, 98] :=
  ⟨by decide, by decide,
    (((loopStream_exact _ [2, 2, 2, 2] (by decide)).2 (by decide) (by decide)).1).trans (by decide)⟩

/-- `ks_buffer_seek(k)` rewinds the loop player to offset `min k used` of `loopBytes`. -/
theorem ksBufferSeek_rewinds_loop (b : Buffer) (k : Nat) (ns : List Nat) (hpos : 0 < b.used)
    (hu : b.used ≤ b.actuallyUsed) (hn : ∀ n ∈ ns, n ≤ b.actuallyUsed) :
    (0 ≤ b.loops → loopStream (ksBufferSeek b k).1 ns =
        ((loopBytes b).drop (min k b.used) ++ (List.replicate b.loops.toNat (loopBytes b)).flatten).take
          ns.sum) ∧
      (b.loops < 0 → intMin ≤ b.loops - ns.length →
        loopStream (ksBufferSeek b k).1 ns =
          ((loopBytes b).drop (min k b.used) ++ (List.replicate ns.length (loopBytes b)).flatten).take
            ns.sum ∧
          intMin ≤ (runOps (ksBufferSeek b k).1 (ns.map Op.readLoop)).loops) := by
  have hs := ksBufferSeek_of_pos k hpos
  have hlive : live (ksBufferSeek b k).1 = (loopBytes b).drop (min k b.used) := by
    rw [hs, loopBytes, slice_drop, min_eq_left (by omega : min k b.used ≤ b.actuallyUsed), Nat.zero_add]
    rfl
  have hloop : loopBytes (ksBufferSeek b k).1 = loopBytes b := by rw [hs]; rfl
  have hl : (ksBufferSeek b k).1.loops = b.loops := by rw [hs]
  have hn' : ∀ n ∈ ns, n ≤ (ksBufferSeek b k).1.actuallyUsed := by rw [hs]; exact hn
  refine ⟨fun h => ?_, fun h hr => ⟨?_, ?_⟩⟩
  · rw [loopStream_eq_take ns _ _ hn' (Or.inl ⟨hl ▸ h, rfl⟩), hlive, hloop, hl]
  · rw [loopStream_eq_take ns _ _ hn' (Or.inr ⟨hl ▸ h, le_rfl⟩), hlive, hloop]
  · exact hr.trans (hl ▸ (runOps_readLoops_loops_ge ns _).1)

theorem ksBufferSeek_rewinds_loop_abc :
    let b := runOps (newBuffer 0 3 0) [.write [97, 98, 99] true, .read 1, .setLoops 1]
    0 < b.used ∧ b.used ≤ b.actuallyUsed ∧ 0 ≤ b.loops ∧
      loopStream (ksBufferSeek b 1).1 [2, 2, 2] = [98, 99, 97, 98, 99] :=
  ⟨by decide, by decide, by decide,
    ((ksBufferSeek_rewinds_loop _ 1 [2, 2, 2] (by decide) (by decide) (by decide)).1 (by decide)).trans
      (by decide)⟩

/-! ## Playing back what was written -/

theorem runFollows_writes (chunks : List (List UInt8)) {b : Buffer} (h : b.allocated = true) :
    RunFollows (fun _ _ => True) b (chunks.map fun data => .write data true) := by
  induction chunks generalizing b with
  | nil => trivial
  | cons data chunks ih => exact ⟨h, trivial, ih (by simpa [Op.apply] using h)⟩

/-- The loop player: `ks_buffer_set_loops(k)` after writes plays them `k + 1` times. -/
theorem loop_player (blocksize startLen maxLen : Nat) (chunks : List (List UInt8)) (k : Int)
    (ns : List Nat) (hsl : 0 < startLen) (hk : intMin ≤ k ∧ k ≤ intMax)
    (hrun : k < 0 → intMin ≤ k - ns.length) (hn : ∀ n ∈ ns, n ≤ chunks.flatten.length) :
    Reachable (ksBufferSetLoops (runOps (newBuffer blocksize startLen maxLen)
        (chunks.map fun data => .write data true)) k) ∧
      loopStream (ksBufferSetLoops (runOps (newBuffer blocksize startLen maxLen)
          (chunks.map fun data => .write data true)) k) ns =
        ((List.replicate ((if k < 0 then ns.length else k.toNat) + 1) chunks.flatten).flatten).take
          ns.sum ∧
      intMin ≤ (runOps (ksBufferSetLoops (runOps (newBuffer blocksize startLen maxLen)
        (chunks.map fun data => .write data true)) k) (ns.map Op.readLoop)).loops := by
  have hr := runOps_writes_recorded chunks
    (⟨rfl, rfl, rfl, rfl, Nat.zero_le _⟩ : Recorded (newBuffer blocksize startLen maxLen) [])
  have hreach := (Reach.init.runOps (runFollows_writes chunks (by simp [newBuffer]; omega)) :
    Reach (fun _ _ => True) (newBuffer blocksize startLen maxLen) _)
  rw [List.nil_append] at hr
  generalize runOps (newBuffer blocksize startLen maxLen) (chunks.map fun data => .write data true) = w
    at hr hreach ⊢
  refine ⟨⟨_, _, _, hreach.step (.setLoops k) hk trivial⟩, ?_, ?_⟩
  · rw [loopStream_eq_take ns _ (if k < 0 then ns.length else k.toNat) (fun n h => hr.actuallyUsed_eq ▸ hn n h)
      (by rcases lt_or_le k 0 with hk | hk
          · exact Or.inr ⟨hk, by rw [if_pos hk]⟩
          · exact Or.inl ⟨hk, by rw [if_neg (not_lt.2 hk)]; rfl⟩)]
    simp only [ksBufferSetLoops, live, loopBytes]
    rw [hr.head_eq, hr.used_eq, hr.actuallyUsed_eq, hr.slice_eq, List.replicate_succ, List.flatten_cons]
  · rcases lt_or_le k 0 with hk0 | hk0
    · exact (hrun hk0).trans (runOps_readLoops_loops_ge ns _).1
    · exact le_trans (by decide) ((runOps_readLoops_loops_ge ns _).2 hk0)

theorem loop_player_twice :
    let b := ksBufferSetLoops (runOps (newBuffer 0 2 0) ([[97, 98], [99]].map fun data => .write data true)) 1
    Reachable b ∧ loopStream b [2, 2, 2, 2] = [97, 98, 99, 97, 98, 99] ∧
      intMin ≤ (runOps b ([2, 2, 2, 2].map Op.readLoop)).loops :=
  have h := loop_player 0 2 0 [[97, 98], [99]] 1 [2, 2, 2, 2] (by decide) (by decide) (by decide)
    (by decide)
  ⟨h.1, h.2.1.trans (by decide), h.2.2⟩

/-! ## The counter over runs -/

/-- For each `ks_buffer_read_loop` of `ops` whose first read comes short, whether it
replays. -/
def replayTrace : Buffer → List Op → List Bool
  | _, [] => []
  | b, op :: ops =>
      (match op with
        | .readLoop n => if (ksBufferRead b n).2.length < n then [decide (Replays b n)] else []
        | _ => []) ++ replayTrace (op.apply b) ops

/-- Callers that leave `loops` to the countdown: they never call `ks_buffer_set_loops`. -/
def CountdownCaller (_ : Buffer) : Op → Prop
  | .setLoops _ => False
  | _ => True

instance : (b : Buffer) → (op : Op) → Decidable (CountdownCaller b op)
  | _, .setLoops _ => isFalse id
  | _, .write _ _ | _, .zwrite _ _ _ | _, .read _ | _, .readLoop _ | _, .seek _ | _, .toss _
  | _, .readPacket _ | _, .zero => isTrue trivial

theorem map_range_succ_lt (k : Int) (m : Nat) :
    (List.range (m + 1)).map (fun i : Nat => decide ((i : Int) < k)) =
      decide (0 < k) :: (List.range m).map fun i : Nat => decide ((i : Int) < k - 1) := by
  rw [List.range_succ_eq_map, List.map_cons, List.map_map]
  congr 1
  apply List.map_congr_left
  intro i _
  simp only [Function.comp, Nat.cast_succ, decide_eq_decide]
  omega

theorem map_range_lt_of_nonpos {k : Int} (hk : k ≤ 0) (m : Nat) :
    (List.range m).map (fun i : Nat => decide ((i : Int) < k)) = List.replicate m false := by
  rw [List.eq_replicate_iff]
  refine ⟨by simp, fun x hx => ?_⟩
  obtain ⟨i, -, rfl⟩ := List.mem_map.1 hx
  simp only [decide_eq_false_iff_not, not_lt]
  omega

/-- Short read-loop calls replay while the counter is not 0, each taking one from `loops`. -/
theorem replayTrace_spec (b : Buffer) (ops : List Op) (h : RunFollows CountdownCaller b ops) :
    (0 ≤ b.loops → replayTrace b ops =
        (List.range (replayTrace b ops).length).map fun i : Nat => decide ((i : Int) < b.loops)) ∧
      (b.loops < 0 → intMin ≤ b.loops - (replayTrace b ops).length →
        replayTrace b ops = List.replicate (replayTrace b ops).length true ∧ intMin ≤ (runOps b ops).loops) ∧
      (runOps b ops).loops = b.loops - (replayTrace b ops).count true := by
  induction ops generalizing b with
  | nil => simp [replayTrace, runOps]
  | cons op ops ih =>
      have ih' := ih (op.apply b) h.2.2
      cases op with
      | readLoop n =>
          have hl := ksBufferReadLoop_loops b n
          simp only [replayTrace, runOps, Op.apply] at ih' ⊢
          by_cases hshort : (ksBufferRead b n).2.length < n
          · by_cases h0 : b.loops = 0
            · -- a short call with the counter at 0: no replay, and none later
              have hr : ¬ Replays b n := fun h => h.2 h0
              rw [if_neg hr, h0] at hl
              simp only [if_pos hshort, decide_eq_false hr, List.singleton_append, hl, h0,
                List.length_cons] at ih' ⊢
              refine ⟨fun _ => ?_, fun h _ => absurd h (by omega), ?_⟩
              · conv_lhs => rw [ih'.1 le_rfl]
                rw [map_range_lt_of_nonpos le_rfl, map_range_lt_of_nonpos le_rfl]
                rfl
              · rw [ih'.2.2, List.count_cons_of_ne Bool.false_ne_true.symm]
            · -- a short call with the counter at `k ≠ 0` replays; the rest follow `k - 1`
              have hr : Replays b n := ⟨hshort, h0⟩
              rw [if_pos hr] at hl
              simp only [if_pos hshort, decide_eq_true hr, List.singleton_append, hl,
                List.length_cons] at ih' ⊢
              refine ⟨fun hk => ?_, fun hk hb => ?_, by rw [ih'.2.2, List.count_cons_self]; omega⟩
              · rw [map_range_succ_lt, ← ih'.1 (by omega), decide_eq_true (by omega)]
              · obtain ⟨ht, hm⟩ := ih'.2.1 (by omega) (by omega)
                exact ⟨by rw [List.replicate_succ, ← ht], hm⟩
          · simp only [if_neg hshort, List.nil_append]
            have hr : ¬ Replays b n := fun h => hshort h.1
            rw [if_neg hr] at hl
            simpa only [hl] using ih'
      | setLoops k => exact h.2.1.elim
      | _ =>
          rw [Op.loops_apply _ _ (by simp) (by simp)] at ih'
          exact ih'

theorem replayTrace_spec_loops_two :
    let b := ksBufferSetLoops (ksBufferWrite (newBuffer 0 2 0) [97, 98] true).1 2
    RunFollows CountdownCaller b (List.replicate 3 (.readLoop 3)) ∧
      replayTrace b (List.replicate 3 (.readLoop 3)) = [true, true, false] ∧
      (runOps b (List.replicate 3 (.readLoop 3))).loops = 0 :=
  have h := replayTrace_spec (ksBufferSetLoops (ksBufferWrite (newBuffer 0 2 0) [97, 98] true).1 2)
    (List.replicate 3 (.readLoop 3)) (by decide)
  ⟨by decide, (h.1 (by decide)).trans (by decide), h.2.2.trans (by decide)⟩

/-! ## Counting down from a negative setting -/

theorem ksBufferReadLoop_empty {b : Buffer} (hu : b.used = 0) (ha : b.actuallyUsed = 0)
    (hl : b.loops ≠ 0) :
    Replays b 1 ∧ (ksBufferReadLoop b 1).1.used = 0 ∧ (ksBufferReadLoop b 1).1.actuallyUsed = 0 := by
  have hr : Replays b 1 := ⟨by simp [ksBufferRead_eq, hu], hl⟩
  exact ⟨hr, by simp [ksBufferReadLoop_replay hr, ksBufferRead_eq, ha]⟩

theorem runFollows_readLoops (b : Buffer) (m n : Nat) :
    RunFollows (fun _ _ => True) b (List.replicate m (.readLoop n)) := by
  induction m generalizing b with
  | zero => trivial
  | succ m ih => exact ⟨trivial, trivial, ih _⟩

theorem runOps_readLoops_loops {b : Buffer} (m : Nat) (hu : b.used = 0)
    (ha : b.actuallyUsed = 0) (hl : b.loops < 0) :
    (runOps b (List.replicate m (.readLoop 1))).loops = b.loops - m := by
  induction m generalizing b with
  | zero => simp [runOps]
  | succ m ih =>
      obtain ⟨hr, hu', ha'⟩ := ksBufferReadLoop_empty hu ha hl.ne
      have hl' : (ksBufferReadLoop b 1).1.loops = b.loops - 1 := by
        rw [ksBufferReadLoop_loops, if_pos hr]
      simp only [List.replicate_succ, runOps, Op.apply]
      rw [ih hu' ha' (by omega), hl']
      push_cast; ring

/-- After `ks_buffer_set_loops(-1)`, the `2^31`-th replay takes `loops` below `INT_MIN`. -/
theorem loops_below_intMin_after_replays :
    Reachable (runOps (newBuffer 0 1 0) (.setLoops (-1) :: List.replicate (2 ^ 31) (.readLoop 1))) ∧
      (runOps (newBuffer 0 1 0) (.setLoops (-1) :: List.replicate (2 ^ 31) (.readLoop 1))).loops =
        intMin - 1 := by
  refine ⟨reachable_runOps ⟨by decide, trivial, runFollows_readLoops _ _ _⟩, ?_⟩
  rw [runOps, runOps_readLoops_loops _ rfl rfl (by decide)]
  simp [Op.apply, ksBufferSetLoops, newBuffer, intMin]

end KsBuffer
