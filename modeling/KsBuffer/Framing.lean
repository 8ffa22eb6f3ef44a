import KsBuffer.Run

/-! # Packet framing

`ks_buffer_packet_count` and `ks_buffer_read_packet` run the same scan over the live
bytes `[head, e)`, `e = head + used`: the guard `p && *p && p < e`, and at a `'\n'`
the lookahead `pe` over an optional `'\r'` to a second `'\n'`, accepted when
`pe <= e`.  The count goes on past each terminator; the read stops at the first one
and hands its length to `ks_buffer_read`.  Both loops (`countLoop`, `packetLoop`) are
fuelled, one unit per iteration, and their results do not depend on the fuel once it
covers the distance to `e`.  The count is the number of successful
`ks_buffer_read_packet` calls in a row.  The terminator the scans look for may end
on the byte at `e`, one past the live bytes: where that byte is not `'\n'` the read
frames the live bytes as a reader of them expects (`livePacketEnd`): successive reads
hand out the packets of the live bytes (`livePackets`) one by one and the count is
their number.  The last results show what happens where that byte is `'\n'`.
-/

namespace KsBuffer

/-! ## The scans -/

section Scan

variable {mem : Bytes} {e : Nat}

theorem lookahead_bounds (mem : Bytes) (p : Nat) :
    p + 1 ≤ lookahead mem p ∧ lookahead mem p ≤ p + 2 := by
  unfold lookahead; split <;> omega

theorem countLoop_of_le {p : Nat} (fuel x : Nat) (h : e ≤ p) : countLoop mem e fuel p x = x := by
  cases fuel <;> simp [countLoop, Nat.not_lt.mpr h]

theorem packetLoop_of_le {p : Nat} (fuel : Nat) (h : e ≤ p) : packetLoop mem e fuel p = none := by
  cases fuel <;> simp [packetLoop, Nat.not_lt.mpr h]

theorem countLoop_acc (fuel p x : Nat) : countLoop mem e fuel p x = x + countLoop mem e fuel p 0 := by
  induction fuel generalizing p x with
  | zero => rfl
  | succ fuel ih =>
      simp only [countLoop]
      split_ifs
      · rw [ih _ (x + 1), ih _ (0 + 1)]; omega
      · exact ih _ _
      · rfl

theorem packetLoop_bounds {fuel p k : Nat} (h : packetLoop mem e fuel p = some k) :
    p + 2 ≤ k ∧ k ≤ e + 1 := by
  induction fuel generalizing p with
  | zero => simp [packetLoop] at h
  | succ fuel ih =>
      simp only [packetLoop] at h
      split_ifs at h with hg ht
      · cases h
        have := lookahead_bounds mem p
        exact ⟨by omega, by have := ht.2.1; omega⟩
      · have := ih h; omega

theorem countLoop_fuel (fuel fuel' p x : Nat) (h : e ≤ fuel + p) (h' : e ≤ fuel' + p) :
    countLoop mem e fuel p x = countLoop mem e fuel' p x := by
  induction fuel generalizing fuel' p x with
  | zero => rw [countLoop_of_le _ _ (by omega), countLoop_of_le _ _ (by omega)]
  | succ fuel ih =>
      cases fuel' with
      | zero => rw [countLoop_of_le _ _ (by omega), countLoop_of_le _ _ (by omega)]
      | succ fuel' =>
          have := lookahead_bounds mem p
          simp only [countLoop]
          split_ifs
          · exact ih _ _ _ (by omega) (by omega)
          · exact ih _ _ _ (by omega) (by omega)
          · rfl

theorem countLoop_eq_packetLoop {fuel p : Nat} (x : Nat) (h : e ≤ fuel + p) :
    countLoop mem e fuel p x =
      match packetLoop mem e fuel p with
      | none => x
      | some k => countLoop mem e fuel k (x + 1) := by
  induction fuel generalizing p x with
  | zero => rfl
  | succ fuel ih =>
      have := lookahead_bounds mem p
      simp only [countLoop, packetLoop]
      split_ifs
      · exact countLoop_fuel fuel (fuel + 1) _ _ (by omega) (by omega)
      · rw [ih x (by omega)]
        split
        · rfl
        · rename_i k hk
          have := packetLoop_bounds hk
          exact countLoop_fuel fuel (fuel + 1) k _ (by omega) (by omega)
      · rfl

theorem packetLoop_eq_some_iff {fuel p k : Nat} (hf : e ≤ fuel + p) :
    packetLoop mem e fuel p = some k ↔
      ∃ q, p ≤ q ∧ q < e ∧ (∀ j, p ≤ j → j ≤ q → mem j ≠ 0) ∧ terminatorAt mem e q ∧
        (∀ j, p ≤ j → j < q → ¬ terminatorAt mem e j) ∧ k = lookahead mem q + 1 := by
  induction fuel generalizing p with
  | zero =>
      simp only [packetLoop, reduceCtorEq, false_iff, not_exists, not_and]
      intro q hq hqe; omega
  | succ fuel ih =>
      simp only [packetLoop]
      split_ifs with hg ht
      · refine ⟨fun h => ⟨p, le_rfl, hg.2, fun j hj hjq => Nat.le_antisymm hjq hj ▸ hg.1,
          ht, fun j hj hjq => by omega, (Option.some.inj h).symm⟩, ?_⟩
        rintro ⟨q, hpq, -, -, hq, hfirst, rfl⟩
        rcases Nat.eq_or_lt_of_le hpq with rfl | hlt
        · rfl
        · exact absurd ht (hfirst p le_rfl hlt)
      · rw [ih (by omega)]
        constructor
        · rintro ⟨q, hpq, hqe, hnz, hq, hfirst, rfl⟩
          refine ⟨q, by omega, hqe, fun j hj hjq => ?_, hq, fun j hj hjq => ?_, rfl⟩
          · rcases Nat.eq_or_lt_of_le hj with rfl | hlt
            · exact hg.1
            · exact hnz j hlt hjq
          · rcases Nat.eq_or_lt_of_le hj with rfl | hlt
            · exact ht
            · exact hfirst j hlt hjq
        · rintro ⟨q, hpq, hqe, hnz, hq, hfirst, rfl⟩
          have hne : q ≠ p := fun h => ht (h ▸ hq)
          exact ⟨q, by omega, hqe, fun j hj hjq => hnz j (by omega) hjq, hq,
            fun j hj hjq => hfirst j (by omega) hjq, rfl⟩
      · simp only [reduceCtorEq, false_iff, not_exists, not_and]
        intro q hpq hqe hnz
        exact absurd ⟨hnz p le_rfl hpq, by omega⟩ hg

end Scan

/-! ## What a read delivers -/

/-- `q` is where the read-packet scan stops: its first terminator before any NUL. -/
def PacketEnd (b : Buffer) (q : Nat) : Prop :=
  b.head ≤ q ∧ q < b.head + b.used ∧ (∀ j < q + 1, b.head ≤ j → b.mem j ≠ 0) ∧
    terminatorAt b.mem (b.head + b.used) q ∧
    ∀ j < q, b.head ≤ j → ¬ terminatorAt b.mem (b.head + b.used) j

instance (b : Buffer) (q : Nat) : Decidable (PacketEnd b q) :=
  inferInstanceAs (Decidable (_ ∧ _ ∧ _ ∧ _ ∧ _))

theorem packetLoop_eq_some_iff_packetEnd (b : Buffer) (k : Nat) :
    packetLoop b.mem (b.head + b.used) (b.used + 1) b.head = some k ↔
      ∃ q, PacketEnd b q ∧ k = lookahead b.mem q + 1 := by
  rw [packetLoop_eq_some_iff (by omega)]
  constructor
  · rintro ⟨q, hq, hqe, hnz, ht, hfirst, rfl⟩
    exact ⟨q, ⟨hq, hqe, fun j hj hh => hnz j hh (by omega), ht, fun j hj hh => hfirst j hh hj⟩, rfl⟩
  · rintro ⟨q, ⟨hq, hqe, hnz, ht, hfirst⟩, rfl⟩
    exact ⟨q, hq, hqe, fun j hh hj => hnz j (by omega) hh, ht, fun j hh hj => hfirst j hj hh, rfl⟩

/-- `ks_buffer_read_packet` reads from `head` to just past the terminator its scan stops at. -/
theorem ksBufferReadPacket_framing (b : Buffer) (maxlen : Nat) (ha : b.allocated = true) :
    (∀ q, PacketEnd b q →
      ksBufferReadPacket b maxlen = ksBufferRead b (min (lookahead b.mem q + 1 - b.head) maxlen)) ∧
    ((∀ q, ¬ PacketEnd b q) → ksBufferReadPacket b maxlen = (b, [])) := by
  refine ⟨fun q hq => ?_, fun h => ?_⟩
  · have hk := (packetLoop_eq_some_iff_packetEnd b _).2 ⟨q, hq, rfl⟩
    simp only [ksBufferReadPacket, ha, if_true, hk]
    congr 1
    split <;> omega
  · cases hk : packetLoop b.mem (b.head + b.used) (b.used + 1) b.head with
    | none => simp [ksBufferReadPacket, ha, hk, ksBufferRead_zero]
    | some k =>
        obtain ⟨q, hq, -⟩ := (packetLoop_eq_some_iff_packetEnd b k).1 hk
        exact absurd hq (h q)

theorem ksBufferReadPacket_framing_first :
    ksBufferReadPacket (ksBufferWrite (newBuffer 0 64 0) [65, 58, 32, 49, 13, 10, 66, 58, 32, 50,
        13, 10, 13, 10, 67, 58, 32, 51, 13, 10, 13, 10] true).1 64 =
      ksBufferRead (ksBufferWrite (newBuffer 0 64 0) [65, 58, 32, 49, 13, 10, 66, 58, 32, 50,
        13, 10, 13, 10, 67, 58, 32, 51, 13, 10, 13, 10] true).1 14 :=
  ((ksBufferReadPacket_framing _ 64 (by decide)).1 11 (by decide)).trans (by rfl)

/-! ## Counting agrees with reading -/

/-- The successive results of `ks_buffer_read_packet` called with `maxlens`. -/
def readPackets : Buffer → List Nat → List Nat
  | _, [] => []
  | b, maxlen :: maxlens =>
      (ksBufferReadPacket b maxlen).2.length :: readPackets (ksBufferReadPacket b maxlen).1 maxlens

/-- Each call is made with a `maxlen` of at least the `used` of its time. -/
def MaxlensCover : Buffer → List Nat → Prop
  | _, [] => True
  | b, maxlen :: maxlens => b.used ≤ maxlen ∧ MaxlensCover (ksBufferReadPacket b maxlen).1 maxlens

instance decMaxlensCover : (b : Buffer) → (maxlens : List Nat) → Decidable (MaxlensCover b maxlens)
  | _, [] => isTrue trivial
  | b, maxlen :: maxlens =>
      have := decMaxlensCover (ksBufferReadPacket b maxlen).1 maxlens
      inferInstanceAs (Decidable (_ ∧ _))

theorem ksBufferReadPacket_step (b : Buffer) {maxlen : Nat} (hm : b.used ≤ maxlen) :
    ksBufferReadPacket b maxlen = (b, []) ∧ ksBufferPacketCount b = 0 ∨
      (ksBufferReadPacket b maxlen).2 ≠ [] ∧
        ksBufferPacketCount b = ksBufferPacketCount (ksBufferReadPacket b maxlen).1 + 1 := by
  have hfuel : b.head + b.used ≤ b.used + 1 + b.head := by omega
  by_cases ha : b.allocated = true
  swap
  · left
    simp [ksBufferReadPacket, ksBufferPacketCount, ha, ksBufferRead_zero]
  cases hk : packetLoop b.mem (b.head + b.used) (b.used + 1) b.head with
  | none =>
      left
      refine ⟨by simp [ksBufferReadPacket, ha, hk, ksBufferRead_zero], ?_⟩
      simp [ksBufferPacketCount, ha, countLoop_eq_packetLoop 0 hfuel, hk]
  | some k =>
      right
      obtain ⟨hk₁, hk₂⟩ := packetLoop_bounds hk
      have hr : min (if k - b.head > maxlen then maxlen else k - b.head) b.used =
          min (k - b.head) b.used := by
        split <;> omega
      simp only [ksBufferReadPacket, ha, hk, if_true, ksBufferRead_eq, hr]
      refine ⟨by simp [slice_eq_nil_iff]; omega, ?_⟩
      simp only [ksBufferPacketCount, ha, if_true, countLoop_eq_packetLoop 0 hfuel, hk]
      rw [countLoop_acc, Nat.add_comm]
      congr 1
      rw [show b.head + min (k - b.head) b.used + (b.used - min (k - b.head) b.used) =
        b.head + b.used by omega]
      by_cases hke : k ≤ b.head + b.used
      · rw [show b.head + min (k - b.head) b.used = k by omega]
        apply countLoop_fuel <;> omega
      · rw [countLoop_of_le _ _ (by omega), countLoop_of_le _ _ (by omega)]

/-- `ks_buffer_packet_count` counts the read-packet calls with `maxlen >= used` that deliver. -/
theorem packetCount_eq_readPackets (b : Buffer) (maxlens : List Nat)
    (h : MaxlensCover b maxlens) :
    (readPackets b maxlens).map (fun r => decide (r ≠ 0)) =
      (List.range maxlens.length).map (fun i => decide (i < ksBufferPacketCount b)) := by
  induction maxlens generalizing b with
  | nil => rfl
  | cons maxlen maxlens ih =>
      obtain ⟨hm, hrest⟩ := h
      rw [List.length_cons, List.range_succ_eq_map, readPackets, List.map_cons, ih _ hrest]
      rcases ksBufferReadPacket_step b hm with ⟨hr, hc⟩ | ⟨hr, hc⟩
      · simp [hr, hc]
      · simp [hc, hr]

theorem packetCount_eq_readPackets_example :
    let b := (ksBufferWrite (newBuffer 0 64 0) [65, 58, 32, 49, 13, 10, 66, 58, 32, 50, 13, 10,
      13, 10, 67, 58, 32, 51, 13, 10, 13, 10] true).1
    MaxlensCover b [64, 64, 64] ∧
      (readPackets b [64, 64, 64]).map (fun r => decide (r ≠ 0)) =
        (List.range 3).map (fun i => decide (i < ksBufferPacketCount b)) :=
  ⟨by decide, packetCount_eq_readPackets _ _ (by decide)⟩

/-! ## The framing of the live bytes -/

/-- Where a reader of `L` expects its first packet to end: past the first terminator in `L`. -/
def livePacketEnd : List UInt8 → Option Nat
  | [] => none
  | c :: rest =>
      if c = 0 then none
      else if c = 10 ∧ rest.head? = some 10 then some 2
      else if c = 10 ∧ rest.head? = some 13 ∧ rest.tail.head? = some 10 then some 3
      else (livePacketEnd rest).map (· + 1)

theorem livePacketEnd_bounds {L : List UInt8} {k : Nat} (h : livePacketEnd L = some k) :
    2 ≤ k ∧ k ≤ L.length := by
  induction L generalizing k with
  | nil => simp [livePacketEnd] at h
  | cons c rest ih =>
      simp only [livePacketEnd] at h
      split_ifs at h with h0 h1 h2
      · cases h
        obtain ⟨_, rfl⟩ := List.head?_eq_some_iff.1 h1.2
        simp only [List.length_cons]; omega
      · cases h
        obtain ⟨_, rfl⟩ := List.head?_eq_some_iff.1 h2.2.1
        obtain ⟨_, hr⟩ := List.head?_eq_some_iff.1 h2.2.2
        simp only [List.tail_cons] at hr
        simp only [hr, List.length_cons]; omega
      · obtain ⟨k', hk', rfl⟩ := Option.map_eq_some'.1 h
        have := ih hk'
        simp only [List.length_cons]
        omega

section Inside

variable {mem : Bytes} {e : Nat}

theorem terminatorAt_iff_inside (he : mem e ≠ 10) {p : Nat} (hn : mem p = 10) :
    terminatorAt mem e p ↔
      p + 1 < e ∧ mem (p + 1) = 10 ∨ p + 2 < e ∧ mem (p + 1) = 13 ∧ mem (p + 2) = 10 := by
  have hin : ∀ q, q ≤ e ∧ mem q = 10 ↔ q < e ∧ mem q = 10 := fun q =>
    ⟨fun ⟨hle, h10⟩ => ⟨Nat.lt_of_le_of_ne hle fun h => he (h ▸ h10), h10⟩, fun ⟨h, h10⟩ => ⟨h.le, h10⟩⟩
  by_cases h13 : mem (p + 1) = 13 <;> simp [terminatorAt, lookahead, h13, hn, hin]

theorem packetLoop_eq_livePacketEnd (he : mem e ≠ 10) (fuel p : Nat) (hp : p ≤ e)
    (hf : e ≤ fuel + p) :
    packetLoop mem e fuel p = (livePacketEnd (slice mem p (e - p))).map (· + p) := by
  induction fuel generalizing p with
  | zero =>
      obtain rfl : p = e := by omega
      simp [packetLoop, livePacketEnd]
  | succ fuel ih =>
      rcases Nat.eq_or_lt_of_le hp with rfl | hlt
      · simp [packetLoop, livePacketEnd]
      obtain ⟨m, hm⟩ : ∃ m, e - p = m + 1 := ⟨e - p - 1, by omega⟩
      have hrest : packetLoop mem e fuel (p + 1) =
          ((livePacketEnd (slice mem (p + 1) m)).map (· + 1)).map (· + p) := by
        rw [ih (p + 1) (by omega) (by omega), show e - (p + 1) = m by omega, Option.map_map]
        congr 1; funext x; simp only [Function.comp]; omega
      rw [hm, slice, livePacketEnd, packetLoop]
      by_cases h0 : mem p = 0
      · simp [h0]
      rw [if_neg h0, if_pos (And.intro h0 hlt)]
      by_cases hn : mem p = 10
      swap
      · simp only [hn, false_and, if_false, terminatorAt, hrest]
      -- a newline at `p`: both sides look for `\n\n` or `\n\r\n` inside the live bytes
      have hA : (slice mem (p + 1) m).head? = some 10 ↔ p + 1 < e ∧ mem (p + 1) = 10 := by
        rcases m with _ | m <;> simp [slice] <;> omega
      have hB : (slice mem (p + 1) m).head? = some 13 ∧ (slice mem (p + 1) m).tail.head? = some 10 ↔
          p + 2 < e ∧ mem (p + 1) = 13 ∧ mem (p + 2) = 10 := by
        rcases m with _ | _ | m <;> simp [slice] <;> omega
      simp only [hn, true_and, hA, hB]
      by_cases h1 : p + 1 < e ∧ mem (p + 1) = 10
      · rw [if_pos ((terminatorAt_iff_inside he hn).2 (Or.inl h1)), if_pos h1]
        simp only [lookahead, h1.2, Option.map_some']
        simp; omega
      by_cases h2 : p + 2 < e ∧ mem (p + 1) = 13 ∧ mem (p + 2) = 10
      · rw [if_pos ((terminatorAt_iff_inside he hn).2 (Or.inr h2)), if_neg h1, if_pos h2]
        simp only [lookahead, h2.2.1, Option.map_some']
        simp; omega
      rw [if_neg (fun h => by rcases (terminatorAt_iff_inside he hn).1 h with h' | h' <;> contradiction),
        if_neg h1, if_neg h2, hrest]

end Inside

section Live

variable {b : Buffer} (maxlen : Nat)

theorem packetLoop_head_eq_livePacketEnd (he : b.mem (b.head + b.used) ≠ 10) :
    packetLoop b.mem (b.head + b.used) (b.used + 1) b.head = (livePacketEnd (live b)).map (· + b.head) := by
  rw [packetLoop_eq_livePacketEnd he (b.used + 1) b.head (Nat.le_add_right _ _) (by omega),
    Nat.add_sub_cancel_left, live]

theorem ksBufferReadPacket_of_livePacketEnd_some (ha : b.allocated = true)
    (he : b.mem (b.head + b.used) ≠ 10) {k : Nat} (hk : livePacketEnd (live b) = some k) :
    ksBufferReadPacket b maxlen = ksBufferRead b (min k maxlen) := by
  simp only [ksBufferReadPacket, ha, if_true, packetLoop_head_eq_livePacketEnd he, hk, Option.map_some',
    Nat.add_sub_cancel]
  congr 1
  split <;> omega

theorem ksBufferReadPacket_of_livePacketEnd_none (ha : b.allocated = true)
    (he : b.mem (b.head + b.used) ≠ 10) (hk : livePacketEnd (live b) = none) :
    ksBufferReadPacket b maxlen = (b, []) := by
  simp only [ksBufferReadPacket, ha, if_true, packetLoop_head_eq_livePacketEnd he, hk, Option.map_none']
  exact ksBufferRead_zero b

end Live

/-- With no `'\n'` just past the live bytes, read-packet frames them as `livePacketEnd` does. -/
theorem ksBufferReadPacket_eq_livePacketEnd (b : Buffer) (maxlen : Nat) (ha : b.allocated = true)
    (he : b.mem (b.head + b.used) ≠ 10) :
    ksBufferReadPacket b maxlen =
      match livePacketEnd (live b) with
      | some k => ksBufferRead b (min k maxlen)
      | none => (b, []) := by
  cases hk : livePacketEnd (live b) with
  | none => exact ksBufferReadPacket_of_livePacketEnd_none maxlen ha he hk
  | some k => exact ksBufferReadPacket_of_livePacketEnd_some maxlen ha he hk

theorem ksBufferReadPacket_eq_livePacketEnd_crlf :
    ksBufferReadPacket (ksBufferWrite (newBuffer 0 8 0) [97, 10, 13, 10, 98] true).1 8 =
      ksBufferRead (ksBufferWrite (newBuffer 0 8 0) [97, 10, 13, 10, 98] true).1 4 :=
  (ksBufferReadPacket_eq_livePacketEnd _ 8 (by decide) (by decide)).trans (by rfl)

/-! ## Reading packet after packet -/

/-- The packets a reader of `L` expects, in order; the fuel bounds their number. -/
def livePacketsAux : Nat → List UInt8 → List (List UInt8)
  | 0, _ => []
  | fuel + 1, L =>
      match livePacketEnd L with
      | some k => L.take k :: livePacketsAux fuel (L.drop k)
      | none => []

def livePackets (L : List UInt8) : List (List UInt8) := livePacketsAux L.length L

theorem livePacketsAux_fuel {fuel fuel' : Nat} {L : List UInt8} (h : L.length ≤ fuel)
    (h' : L.length ≤ fuel') : livePacketsAux fuel L = livePacketsAux fuel' L := by
  induction fuel generalizing fuel' L with
  | zero =>
      obtain rfl : L = [] := List.eq_nil_of_length_eq_zero (by omega)
      cases fuel' <;> rfl
  | succ fuel ih =>
      cases fuel' with
      | zero =>
          obtain rfl : L = [] := List.eq_nil_of_length_eq_zero (by omega)
          rfl
      | succ fuel' =>
          simp only [livePacketsAux]
          split
          · rename_i k hk
            have := livePacketEnd_bounds hk
            exact congrArg _ (ih (by simp; omega) (by simp; omega))
          · rfl

theorem livePackets_of_some {L : List UInt8} {k : Nat} (h : livePacketEnd L = some k) :
    livePackets L = L.take k :: livePackets (L.drop k) := by
  have := livePacketEnd_bounds h
  obtain ⟨m, hm⟩ : ∃ m, L.length = m + 1 := ⟨L.length - 1, by omega⟩
  rw [livePackets, hm]
  simp only [livePacketsAux, h]
  rw [livePackets, livePacketsAux_fuel (by simp; omega) le_rfl]

theorem livePackets_of_none {L : List UInt8} (h : livePacketEnd L = none) : livePackets L = [] := by
  unfold livePackets
  cases L.length <;> simp [livePacketsAux, h]

theorem livePacketEnd_append {L : List UInt8} {k : Nat} (D : List UInt8) (h : livePacketEnd L = some k) :
    livePacketEnd (L ++ D) = some k := by
  induction L generalizing k with
  | nil => simp [livePacketEnd] at h
  | cons c rest ih =>
      have hb := livePacketEnd_bounds h
      rw [List.cons_append, livePacketEnd]
      rw [livePacketEnd] at h
      by_cases h0 : c = 0
      · simp [h0] at h
      rw [if_neg h0] at h ⊢
      -- bytes appended after `rest` change neither lookahead once `rest` has the bytes it reads
      by_cases h1 : c = 10 ∧ rest.head? = some 10
      · have hne : rest ≠ [] := by rintro rfl; simp at h1
        rw [if_pos h1] at h
        rw [if_pos ⟨h1.1, by rw [List.head?_append_of_ne_nil _ hne]; exact h1.2⟩]
        exact h
      rw [if_neg h1] at h
      by_cases h2 : c = 10 ∧ rest.head? = some 13 ∧ rest.tail.head? = some 10
      · have hne : rest ≠ [] := by rintro rfl; simp at h2
        have hne' : rest.tail ≠ [] := by intro h; simp [h] at h2
        rw [if_pos h2] at h
        rw [if_neg (by rw [List.head?_append_of_ne_nil _ hne]; exact h1), if_pos ⟨h2.1, by
          rw [List.head?_append_of_ne_nil _ hne]; exact h2.2.1, by
          rw [List.tail_append_of_ne_nil hne, List.head?_append_of_ne_nil _ hne']; exact h2.2.2⟩]
        exact h
      rw [if_neg h2] at h
      obtain ⟨k', hk', rfl⟩ := Option.map_eq_some'.1 h
      have := livePacketEnd_bounds hk'
      have hne : rest ≠ [] := by rintro rfl; simp [livePacketEnd] at hk'
      have hne' : rest.tail ≠ [] := by intro h; rw [← List.length_eq_zero, List.length_tail] at h; omega
      rw [List.head?_append_of_ne_nil _ hne, List.tail_append_of_ne_nil hne, List.head?_append_of_ne_nil _ hne',
        if_neg h1, if_neg h2, ih hk']
      rfl

theorem livePackets_prefix_append (L D : List UInt8) : livePackets L <+: livePackets (L ++ D) := by
  induction' hn : L.length using Nat.strong_induction_on with n ih generalizing L
  cases hk : livePacketEnd L with
  | none => rw [livePackets_of_none hk]; exact List.nil_prefix
  | some k =>
      have hkL := livePacketEnd_bounds hk
      rw [livePackets_of_some hk, livePackets_of_some (livePacketEnd_append D hk),
        List.take_append_of_le_length hkL.2, List.drop_append_of_le_length hkL.2]
      exact List.cons_prefix_cons.2 ⟨rfl, ih _ (by simp only [List.length_drop]; omega) _ rfl⟩

/-- The bytes that successive `ks_buffer_read_packet` calls with `maxlens` copy out. -/
def packetStream : Buffer → List Nat → List (List UInt8)
  | _, [] => []
  | b, maxlen :: maxlens =>
      (ksBufferReadPacket b maxlen).2 :: packetStream (ksBufferReadPacket b maxlen).1 maxlens

/-- With no `'\n'` past the live bytes, read-packet calls hand out its packets, then nothing. -/
theorem packetStream_eq_livePackets (b : Buffer) (maxlens : List Nat) (ha : b.allocated = true)
    (he : b.mem (b.head + b.used) ≠ 10) (hm : ∀ m ∈ maxlens, b.used ≤ m) :
    packetStream b maxlens = (livePackets (live b)).take maxlens.length ++
      List.replicate (maxlens.length - (livePackets (live b)).length) [] := by
  induction maxlens generalizing b with
  | nil => simp only [packetStream, List.length_nil, List.take_zero, List.nil_append, Nat.zero_sub,
      List.replicate_zero]
  | cons maxlen maxlens ih =>
      have hm₀ := hm maxlen (List.mem_cons_self _ _)
      cases hk : livePacketEnd (live b) with
      | none =>
          rw [packetStream, ksBufferReadPacket_of_livePacketEnd_none maxlen ha he hk,
            ih b ha he fun m h => hm m (List.mem_cons_of_mem _ h), livePackets_of_none hk]
          simp only [List.take_nil, List.nil_append, List.length_nil, Nat.sub_zero, List.length_cons,
            List.replicate_succ]
      | some k =>
          have hkL := (livePacketEnd_bounds hk).2
          rw [live_length] at hkL
          obtain ⟨hout, hlive⟩ := ksBufferRead_live b k
          have ih' := ih (ksBufferRead b k).1 (by rw [ksBufferRead_fst]; exact ha)
            (by rw [ksBufferRead_liveEnd]; rw [ksBufferRead_fst]; exact he)
            fun m h => (ksBufferRead_used_le b k).trans (hm m (List.mem_cons_of_mem _ h))
          rw [packetStream, ksBufferReadPacket_of_livePacketEnd_some maxlen ha he hk,
            min_eq_left (by omega), ih', hout, hlive, livePackets_of_some hk]
          simp only [List.length_cons, List.take_succ_cons, Nat.add_sub_add_right, List.cons_append]

theorem packetStream_eq_livePackets_headers :
    packetStream (ksBufferWrite (newBuffer 0 64 0) [65, 58, 32, 49, 13, 10, 66, 58, 32, 50,
        13, 10, 13, 10, 67, 58, 32, 51, 13, 10, 13, 10] true).1 [64, 64, 64] =
      [[65, 58, 32, 49, 13, 10, 66, 58, 32, 50, 13, 10, 13, 10], [67, 58, 32, 51, 13, 10, 13, 10], []] :=
  (packetStream_eq_livePackets _ _ (by decide) (by decide) (by decide)).trans (by decide)

/-- With no `'\n'` past the live bytes, `ks_buffer_packet_count` counts its packets. -/
theorem ksBufferPacketCount_eq_livePackets (b : Buffer) (ha : b.allocated = true)
    (he : b.mem (b.head + b.used) ≠ 10) : ksBufferPacketCount b = (livePackets (live b)).length := by
  induction' hn : b.used using Nat.strong_induction_on with n ih generalizing b
  cases hk : livePacketEnd (live b) with
  | none =>
      rcases ksBufferReadPacket_step b le_rfl with ⟨-, hc⟩ | ⟨hr, -⟩
      · rw [hc, livePackets_of_none hk]; rfl
      · rw [ksBufferReadPacket_of_livePacketEnd_none _ ha he hk] at hr; exact absurd rfl hr
  | some k =>
      obtain ⟨hk2, hkL⟩ := livePacketEnd_bounds hk
      rw [live_length] at hkL
      have hr := ksBufferReadPacket_of_livePacketEnd_some b.used ha he hk
      rw [min_eq_left hkL] at hr
      obtain ⟨hout, hlive⟩ := ksBufferRead_live b k
      rcases ksBufferReadPacket_step b le_rfl with ⟨hr', -⟩ | ⟨-, hc⟩
      · -- the read of the first packet copies `k >= 2` bytes, so it is not `(b, [])`
        have := congrArg (fun r => r.2.length) (hr.symm.trans hr')
        simp only [hout, List.length_take, live_length, List.length_nil] at this
        omega
      · rw [hc, hr, ih _ (by rw [← hn, ksBufferRead_fst]; dsimp only; omega) _
          (by rw [ksBufferRead_fst]; exact ha) (by rw [ksBufferRead_liveEnd, ksBufferRead_fst]; exact he) rfl,
          hlive, livePackets_of_some hk, List.length_cons]

theorem ksBufferPacketCount_eq_livePackets_two :
    ksBufferPacketCount (ksBufferWrite (newBuffer 0 16 0) [97, 10, 10, 98, 13, 10, 13, 10, 99] true).1 = 2 :=
  (ksBufferPacketCount_eq_livePackets _ (by decide) (by decide)).trans (by decide)

/-! ## The byte past the live bytes -/

/-- A compaction leaves a stale `'\n'` past the live bytes that read-packet takes for a terminator. -/
theorem ksBufferReadPacket_stale_terminator :
    Reachable (runOps (newBuffer 0 4 0) [.write [97, 10, 10] true, .read 3, .write [98, 10] true]) ∧
      live (runOps (newBuffer 0 4 0)
        [.write [97, 10, 10] true, .read 3, .write [98, 10] true]) = [98, 10] ∧
      (ksBufferReadPacket (runOps (newBuffer 0 4 0)
        [.write [97, 10, 10] true, .read 3, .write [98, 10] true]) 2).2 = [98, 10] :=
  ⟨reachable_runOps (by decide), by decide, by decide⟩

/-- With `a\n` filling a 2-byte block, both scans read the byte past the block. -/
theorem packetScans_read_past_block :
    let b : Buffer := (ksBufferWrite (newBuffer 0 2 0) [97, 10] true).1
    let b' : Buffer := { b with mem := Function.update b.mem 2 10 }
    Reachable b ∧ b.head + b.used = 2 ∧ b.datalen = 2 ∧
      ksBufferPacketCount b = 0 ∧ ksBufferPacketCount b' = 1 ∧
      (ksBufferReadPacket b 2).2 = [] ∧ (ksBufferReadPacket b' 2).2 = [97, 10] :=
  ⟨(reachable_runOps (by decide) : Reachable (runOps (newBuffer 0 2 0) [.write [97, 10] true])),
    by decide, by decide, by decide, by decide, by decide, by decide⟩

end KsBuffer
