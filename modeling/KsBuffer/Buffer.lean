import KsBuffer.Memory

/-! # `struct ks_buffer` and its operations

Each function of `libks/src/ks_buffer.c` is one definition under its own name.  The
pointers `data` and `head` become the block's bytes and the offset `head - data`;
`ks_size_t` is `Nat`, so the model covers the runs in which no size computation of
the source leaves the range of `ks_size_t` (its `typedef` is not part of the
source).  A function that mutates the buffer returns the new state together with
what the C function returns and, for the reads, the bytes it copies to the caller's
`data`.  `realloc` is the only call whose outcome the model does not fix: the write
takes it as an argument.  `ks_assert` conditions are the callers' obligations and are
stated with the runs (`KsBuffer.Run`).
-/

namespace KsBuffer

/-- `struct ks_buffer`.  The diagnostic `id` is never read by a buffer function and
is left out. -/
structure Buffer where
  /-- `data != NULL`. -/
  allocated : Bool
  /-- The block `data` points to. -/
  mem : Bytes
  /-- `head - data`. -/
  head : Nat
  used : Nat
  actuallyUsed : Nat
  datalen : Nat
  maxLen : Nat
  blocksize : Nat
  /-- The `int` counter as an unbounded integer: `loops - 1` is C's `loops--` down to `INT_MIN`. -/
  loops : Int

/-- The buffer `ks_buffer_create` returns when both `malloc`s succeed: the structure
zeroed, a zeroed block of `start_len` bytes, and no block when `start_len` is 0. -/
def newBuffer (blocksize startLen maxLen : Nat) : Buffer where
  allocated := startLen != 0
  mem := fun _ => 0
  head := 0
  used := 0
  actuallyUsed := 0
  datalen := startLen
  maxLen := maxLen
  blocksize := blocksize
  loops := 0

/-- `ks_buffer_create`; `mallocOk` is whether its allocations succeed. -/
def ksBufferCreate (blocksize startLen maxLen : Nat) (mallocOk : Bool) : Option Buffer :=
  if mallocOk then some (newBuffer blocksize startLen maxLen) else none

/-- `ks_buffer_len`: the size of the block, not the number of live bytes. -/
def ksBufferLen (b : Buffer) : Nat := b.datalen

/-- `ks_buffer_freespace`.  The C subtraction `max_len - used` wraps when `used`
exceeds `max_len`, where this one gives 0; `KsBuffer.Capacity` shows which runs keep
`used <= max_len`. -/
def ksBufferFreespace (b : Buffer) : Nat :=
  if b.maxLen ≠ 0 then b.maxLen - b.used else 1000000

/-- `ks_buffer_inuse`. -/
def ksBufferInuse (b : Buffer) : Nat := b.used

/-- The count `reading` that `ks_buffer_read`, `ks_buffer_seek` and `ks_buffer_toss`
compute when `used >= 1`. -/
def reading (used datalen : Nat) : Nat := if used ≥ datalen then datalen else used

theorem reading_eq_min (used datalen : Nat) : reading used datalen = min datalen used := by
  unfold reading
  split <;> omega

/-- `ks_buffer_seek`.  Unlike `ks_buffer_toss` it places `head` at `data + reading`
and takes `used` from `actually_used`. -/
def ksBufferSeek (b : Buffer) (datalen : Nat) : Buffer × Nat :=
  if b.used < 1 then ({ b with used := 0 }, 0)
  else
    let r := reading b.used datalen
    ({ b with used := b.actuallyUsed - r, head := r }, r)

/-- `ks_buffer_toss`; it returns the new `used`. -/
def ksBufferToss (b : Buffer) (datalen : Nat) : Buffer × Nat :=
  if b.used < 1 then ({ b with used := 0 }, 0)
  else
    let r := reading b.used datalen
    ({ b with used := b.used - r, head := b.head + r }, b.used - r)

def ksBufferSetLoops (b : Buffer) (loops : Int) : Buffer := { b with loops := loops }

/-- `ks_buffer_read`: the new state and the bytes copied to `data`, whose number is
the C return value. -/
def ksBufferRead (b : Buffer) (datalen : Nat) : Buffer × List UInt8 :=
  if b.used < 1 then ({ b with used := 0 }, [])
  else
    let r := reading b.used datalen
    ({ b with used := b.used - r, head := b.head + r }, slice b.mem b.head r)

/-- `ks_buffer_read_loop`: the new state, the bytes written to `data`, and the
return value `len`, which the replay branch overwrites with the second read's count. -/
def ksBufferReadLoop (b : Buffer) (datalen : Nat) : Buffer × List UInt8 × Nat :=
  let first := ksBufferRead b datalen
  if first.2.length < datalen then
    if first.1.loops = 0 then (first.1, first.2, first.2.length)
    else
      let second := ksBufferRead { first.1 with head := 0, used := first.1.actuallyUsed }
        (datalen - first.2.length)
      ({ second.1 with loops := second.1.loops - 1 }, first.2 ++ second.2, second.2.length)
  else (first.1, first.2, first.2.length)

/-- The condition under which `ks_buffer_read_loop` replays: its first read comes
short and `loops` is not 0. -/
def Replays (b : Buffer) (datalen : Nat) : Prop :=
  (ksBufferRead b datalen).2.length < datalen ∧ b.loops ≠ 0

instance (b : Buffer) (datalen : Nat) : Decidable (Replays b datalen) :=
  inferInstanceAs (Decidable (_ ∧ _))

/-! ## Packet framing -/

/-- Where `pe` stands after `pe = p+1; if (*pe == '\r') pe++;`. -/
def lookahead (mem : Bytes) (p : Nat) : Nat := if mem (p + 1) = 13 then p + 2 else p + 1

/-- The loop body's test: `*p == '\n'`, then `pe <= e && *pe == '\n'`. -/
def terminatorAt (mem : Bytes) (e p : Nat) : Prop :=
  mem p = 10 ∧ lookahead mem p ≤ e ∧ mem (lookahead mem p) = 10

instance (mem : Bytes) (e p : Nat) : Decidable (terminatorAt mem e p) :=
  inferInstanceAs (Decidable (_ ∧ _ ∧ _))

/-- The loop of `ks_buffer_packet_count` from `p` with `x` packets counted.  After a
terminator `p = pe++` and the `p++` of the `for` resume just past it. -/
def countLoop (mem : Bytes) (e : Nat) : (fuel p x : Nat) → Nat
  | 0, _, x => x
  | fuel + 1, p, x =>
      if mem p ≠ 0 ∧ p < e then
        if terminatorAt mem e p then countLoop mem e fuel (lookahead mem p + 1) (x + 1)
        else countLoop mem e fuel (p + 1) x
      else x

/-- The loop of `ks_buffer_read_packet` from `p`: the offset just past the first
terminator, where `pe++` leaves `pe` before the `break`. -/
def packetLoop (mem : Bytes) (e : Nat) : (fuel p : Nat) → Option Nat
  | 0, _ => none
  | fuel + 1, p =>
      if mem p ≠ 0 ∧ p < e then
        if terminatorAt mem e p then some (lookahead mem p + 1)
        else packetLoop mem e fuel (p + 1)
      else none

/-- `ks_buffer_packet_count`.  `p` starts at `head`, which is `NULL` exactly when
`data` is, and the loop stops within `used` iterations. -/
def ksBufferPacketCount (b : Buffer) : Nat :=
  if b.allocated then countLoop b.mem (b.head + b.used) (b.used + 1) b.head 0 else 0

/-- `ks_buffer_read_packet`: the length of the first packet, clamped to `maxlen`, or 0,
read with `ks_buffer_read`. -/
def ksBufferReadPacket (b : Buffer) (maxlen : Nat) : Buffer × List UInt8 :=
  let datalen :=
    if b.allocated then
      match packetLoop b.mem (b.head + b.used) (b.used + 1) b.head with
      | some pe => if pe - b.head > maxlen then maxlen else pe - b.head
      | none => 0
    else 0
  ksBufferRead b datalen

/-! ## `ks_buffer_write` in its three stages -/

/-- Lines 261-266: when the tail past `actually_used` cannot take `datalen` bytes and
`max_len` allows it, the live bytes move to the start of the block. -/
def compactStep (b : Buffer) (datalen : Nat) : Buffer :=
  if b.datalen - b.actuallyUsed < datalen ∧ (b.maxLen = 0 ∨ b.used + datalen ≤ b.maxLen) then
    { b with mem := memmove b.mem 0 b.head b.used, head := 0, actuallyUsed := b.used }
  else b

/-- Lines 268-295: when `datalen - used` bytes cannot take `datalen` more, `realloc`
to the larger of `datalen + n` and `datalen + blocksize`, with `head` reset to
`data`; `none` when `realloc` fails. -/
def growStep (b : Buffer) (datalen : Nat) (reallocOk : Bool) : Option Buffer :=
  if b.datalen - b.used < datalen then
    if reallocOk then
      let newSize := b.datalen + datalen
      let newBlockSize := b.datalen + b.blocksize
      some { b with
        head := 0
        datalen := if newBlockSize > newSize then newBlockSize else newSize }
    else none
  else some b

/-- Lines 298-309: the copy to `head + used` once `datalen - used` bytes are free. -/
def storeStep (b : Buffer) (data : List UInt8) : Buffer × Nat :=
  if b.datalen - b.used < data.length then (b, 0)
  else
    ({ b with
        mem := memcpy b.mem (b.head + b.used) data
        used := b.used + data.length
        actuallyUsed := b.actuallyUsed + data.length }, b.used + data.length)

/-- `ks_buffer_write` of `data` (its `datalen` is `data.length`); `reallocOk` is the
outcome of the `realloc` call, when the write makes one.  A failed `realloc` returns
0 after `head` was already reset to `data`. -/
def ksBufferWrite (b : Buffer) (data : List UInt8) (reallocOk : Bool) : Buffer × Nat :=
  if data.length = 0 then (b, b.used)
  else
    let b := compactStep b data.length
    match growStep b data.length reallocOk with
    | none => ({ b with head := 0 }, 0)
    | some b => storeStep b data

def ksBufferZero (b : Buffer) : Buffer := { b with used := 0, actuallyUsed := 0, head := 0 }

/-- `ks_buffer_zwrite`: a write, and when it returns 0, a zero and a second write. -/
def ksBufferZwrite (b : Buffer) (data : List UInt8) (reallocOk reallocOk' : Bool) :
    Buffer × Nat :=
  let w := ksBufferWrite b data reallocOk
  if w.2 = 0 then ksBufferWrite (ksBufferZero w.1) data reallocOk' else w

/-- The live bytes, `storage[head, head + used)`. -/
def live (b : Buffer) : List UInt8 := slice b.mem b.head b.used

/-! ## One lemma per operation -/

@[simp] theorem live_length (b : Buffer) : (live b).length = b.used := slice_length _ _ _

theorem ksBufferRead_eq (b : Buffer) (datalen : Nat) :
    ksBufferRead b datalen =
      ({ b with used := b.used - min datalen b.used, head := b.head + min datalen b.used },
        slice b.mem b.head (min datalen b.used)) := by
  unfold ksBufferRead
  split
  · obtain ⟨_, _, _, _, _, _, _, _, _⟩ := b
    simp_all
  · simp [reading_eq_min]

/-- The state a read leaves, without the bytes it copies. -/
theorem ksBufferRead_fst (b : Buffer) (datalen : Nat) :
    (ksBufferRead b datalen).1 =
      { b with used := b.used - min datalen b.used, head := b.head + min datalen b.used } := by
  rw [ksBufferRead_eq]

theorem ksBufferRead_zero (b : Buffer) : ksBufferRead b 0 = (b, []) := by
  simp [ksBufferRead_eq]

theorem ksBufferRead_length (b : Buffer) (datalen : Nat) :
    (ksBufferRead b datalen).2.length = min datalen b.used := by
  rw [ksBufferRead_eq, slice_length]

/-- A read copies out the first live bytes and leaves the rest live. -/
theorem ksBufferRead_live (b : Buffer) (n : Nat) :
    (ksBufferRead b n).2 = (live b).take n ∧ live (ksBufferRead b n).1 = (live b).drop n := by
  simp [ksBufferRead_eq, live, slice_take, slice_drop]

theorem ksBufferRead_used_le (b : Buffer) (n : Nat) : (ksBufferRead b n).1.used ≤ b.used := by
  rw [ksBufferRead_fst]; exact Nat.sub_le _ _

theorem ksBufferRead_liveEnd (b : Buffer) (n : Nat) :
    (ksBufferRead b n).1.head + (ksBufferRead b n).1.used = b.head + b.used := by
  rw [ksBufferRead_fst]; dsimp only; omega

theorem ksBufferToss_eq (b : Buffer) (datalen : Nat) :
    ksBufferToss b datalen =
      ({ b with used := b.used - min datalen b.used, head := b.head + min datalen b.used },
        b.used - min datalen b.used) := by
  unfold ksBufferToss
  split
  · obtain ⟨_, _, _, _, _, _, _, _, _⟩ := b
    simp_all
  · simp [reading_eq_min]

theorem ksBufferReadLoop_of_not_replays {b : Buffer} {datalen : Nat} (h : ¬ Replays b datalen) :
    ksBufferReadLoop b datalen =
      ((ksBufferRead b datalen).1, (ksBufferRead b datalen).2, (ksBufferRead b datalen).2.length) := by
  have hl : (ksBufferRead b datalen).1.loops = b.loops := by simp [ksBufferRead_eq]
  unfold Replays at h
  dsimp only [ksBufferReadLoop]
  split_ifs <;> simp_all

theorem ksBufferReadLoop_live_of_not_replays {b : Buffer} {datalen : Nat} (h : ¬ Replays b datalen) :
    (ksBufferReadLoop b datalen).2.1 ++ live (ksBufferReadLoop b datalen).1 = live b ∧
      (ksBufferReadLoop b datalen).1.loops = b.loops := by
  rw [ksBufferReadLoop_of_not_replays h, (ksBufferRead_live b datalen).1,
    (ksBufferRead_live b datalen).2, List.take_append_drop, ksBufferRead_fst]
  exact ⟨rfl, rfl⟩

/-- A replaying call reads the rest of the request again from `data`. -/
theorem ksBufferReadLoop_replay {b : Buffer} {datalen : Nat} (h : Replays b datalen) :
    ksBufferReadLoop b datalen =
      ({ (ksBufferRead { b with head := 0, used := b.actuallyUsed } (datalen - b.used)).1 with
          loops := b.loops - 1 },
        live b ++ (ksBufferRead { b with head := 0, used := b.actuallyUsed } (datalen - b.used)).2,
        (ksBufferRead { b with head := 0, used := b.actuallyUsed } (datalen - b.used)).2.length) := by
  obtain ⟨hshort, hloops⟩ := h
  have hu : b.used < datalen := by rw [ksBufferRead_eq, slice_length] at hshort; omega
  have hr : ksBufferRead b datalen = ({ b with used := 0, head := b.head + b.used }, live b) := by
    rw [ksBufferRead_eq, min_eq_right hu.le, Nat.sub_self]; rfl
  simp only [ksBufferReadLoop, hr, live_length, if_pos hu, if_neg hloops, ksBufferRead_fst]

theorem ksBufferReadPacket_eq_read (b : Buffer) (maxlen : Nat) :
    ∃ m ≤ maxlen, ksBufferReadPacket b maxlen = ksBufferRead b m := by
  refine ⟨_, ?_, rfl⟩
  split
  · split
    · split <;> omega
    · exact Nat.zero_le _
  · exact Nat.zero_le _

theorem ksBufferSeek_of_pos {b : Buffer} (datalen : Nat) (h : 0 < b.used) :
    ksBufferSeek b datalen =
      ({ b with used := b.actuallyUsed - min datalen b.used, head := min datalen b.used },
        min datalen b.used) := by
  simp [ksBufferSeek, reading_eq_min, show ¬ b.used < 1 by omega]

theorem ksBufferSeek_of_zero {b : Buffer} (datalen : Nat) (h : b.used = 0) :
    ksBufferSeek b datalen = (b, 0) := by
  obtain ⟨_, _, _, _, _, _, _, _, _⟩ := b
  simp_all [ksBufferSeek]

section Write

variable (b : Buffer) (n : Nat)

@[simp] theorem compactStep_used : (compactStep b n).used = b.used := by
  unfold compactStep; split <;> rfl

@[simp] theorem compactStep_datalen : (compactStep b n).datalen = b.datalen := by
  unfold compactStep; split <;> rfl

@[simp] theorem compactStep_maxLen : (compactStep b n).maxLen = b.maxLen := by
  unfold compactStep; split <;> rfl

@[simp] theorem compactStep_blocksize : (compactStep b n).blocksize = b.blocksize := by
  unfold compactStep; split <;> rfl

@[simp] theorem compactStep_loops : (compactStep b n).loops = b.loops := by
  unfold compactStep; split <;> rfl

@[simp] theorem compactStep_allocated : (compactStep b n).allocated = b.allocated := by
  unfold compactStep; split <;> rfl

/-- The state after the `realloc` of `growStep` succeeds. -/
def grown : Buffer :=
  { b with head := 0, datalen := max (b.datalen + n) (b.datalen + b.blocksize) }

theorem growStep_of_fits {b : Buffer} {n : Nat} (ok : Bool) (h : b.used + n ≤ b.datalen) :
    growStep b n ok = some b := by
  simp [growStep, show ¬ b.datalen - b.used < n by omega]

theorem growStep_of_full {b : Buffer} {n : Nat} (ok : Bool) (h : b.datalen - b.used < n) :
    growStep b n ok = if ok then some (grown b n) else none := by
  unfold growStep grown
  rw [if_pos h]
  cases ok
  · rfl
  · simp only [if_true, Option.some.injEq]
    congr 1
    split <;> omega

variable {b n} (data : List UInt8)

theorem storeStep_of_fits (h : b.used + data.length ≤ b.datalen) :
    storeStep b data =
      ({ b with
          mem := memcpy b.mem (b.head + b.used) data
          used := b.used + data.length
          actuallyUsed := b.actuallyUsed + data.length }, b.used + data.length) := by
  simp [storeStep, show ¬ b.datalen - b.used < data.length by omega]

theorem storeStep_of_full (h : b.datalen - b.used < data.length) : storeStep b data = (b, 0) := by
  simp [storeStep, h]

theorem storeStep_datalen (b : Buffer) (data : List UInt8) :
    (storeStep b data).1.datalen = b.datalen := by
  unfold storeStep; split <;> rfl

@[simp] theorem ksBufferWrite_nil (b : Buffer) (ok : Bool) : ksBufferWrite b [] ok = (b, b.used) :=
  rfl

/-- What a write of nonempty `data` can do once its compaction stage has run. -/
theorem ksBufferWrite_cases (b : Buffer) (data : List UInt8) (ok : Bool) (hd : data ≠ []) :
    ksBufferWrite b data ok = storeStep (compactStep b data.length) data ∧
        b.used + data.length ≤ b.datalen ∨
      ksBufferWrite b data ok = storeStep (grown (compactStep b data.length) data.length) data ∧
        b.datalen < b.used + data.length ∧ ok = true ∨
      ksBufferWrite b data ok = ({ compactStep b data.length with head := 0 }, 0) ∧
        b.datalen < b.used + data.length ∧ ok = false := by
  have hn : data.length ≠ 0 := by simpa using hd
  by_cases hfit : b.used + data.length ≤ b.datalen
  · left
    have hfit' : (compactStep b data.length).used + data.length ≤
        (compactStep b data.length).datalen := by simpa using hfit
    simp [ksBufferWrite, hn, growStep_of_fits ok hfit', hfit]
  · have hfull : (compactStep b data.length).datalen - (compactStep b data.length).used <
        data.length := by simp; omega
    cases ok <;> simp [ksBufferWrite, hn, growStep_of_full _ hfull, hfit] <;> omega

theorem ksBufferWrite_of_fits (ok : Bool) (hd : data ≠ []) (h : b.used + data.length ≤ b.datalen) :
    ksBufferWrite b data ok = storeStep (compactStep b data.length) data := by
  rcases ksBufferWrite_cases b data ok hd with ⟨hw, -⟩ | ⟨-, hfull, -⟩ | ⟨-, hfull, -⟩
  · exact hw
  all_goals omega

theorem ksBufferWrite_of_full (hd : data ≠ []) (h : b.datalen < b.used + data.length) :
    ksBufferWrite b data false = ({ compactStep b data.length with head := 0 }, 0) := by
  rcases ksBufferWrite_cases b data false hd with ⟨-, hfit⟩ | ⟨-, -, hok⟩ | ⟨hw, -⟩
  · omega
  · simp at hok
  · exact hw

section Fields

variable (b : Buffer) (data : List UInt8) (ok : Bool)

theorem ksBufferWrite_fields :
    (ksBufferWrite b data ok).1.maxLen = b.maxLen ∧
      (ksBufferWrite b data ok).1.blocksize = b.blocksize ∧
      (ksBufferWrite b data ok).1.loops = b.loops ∧
      (ksBufferWrite b data ok).1.allocated = b.allocated ∧
      ((ksBufferWrite b data ok).1.used = b.used ∨
        (ksBufferWrite b data ok).1.used = b.used + data.length) := by
  by_cases hd : data = []
  · subst hd; exact ⟨rfl, rfl, rfl, rfl, Or.inl rfl⟩
  rcases ksBufferWrite_cases b data ok hd with ⟨hw, -⟩ | ⟨hw, -⟩ | ⟨hw, -⟩ <;> rw [hw]
  · unfold storeStep; split <;> simp only [compactStep_maxLen, compactStep_blocksize,
      compactStep_loops, compactStep_allocated, compactStep_used, true_or, or_true, and_self]
  · unfold storeStep; split <;> simp only [grown, compactStep_maxLen, compactStep_blocksize,
      compactStep_loops, compactStep_allocated, compactStep_used, true_or, or_true, and_self]
  · simp only [compactStep_maxLen, compactStep_blocksize, compactStep_loops,
      compactStep_allocated, compactStep_used, true_or, and_self]

@[simp] theorem ksBufferWrite_maxLen : (ksBufferWrite b data ok).1.maxLen = b.maxLen :=
  (ksBufferWrite_fields b data ok).1

@[simp] theorem ksBufferWrite_blocksize : (ksBufferWrite b data ok).1.blocksize = b.blocksize :=
  (ksBufferWrite_fields b data ok).2.1

@[simp] theorem ksBufferWrite_loops : (ksBufferWrite b data ok).1.loops = b.loops :=
  (ksBufferWrite_fields b data ok).2.2.1

@[simp] theorem ksBufferWrite_allocated : (ksBufferWrite b data ok).1.allocated = b.allocated :=
  (ksBufferWrite_fields b data ok).2.2.2.1

theorem ksBufferWrite_used :
    (ksBufferWrite b data ok).1.used = b.used ∨
      (ksBufferWrite b data ok).1.used = b.used + data.length :=
  (ksBufferWrite_fields b data ok).2.2.2.2

end Fields

end Write

end KsBuffer
