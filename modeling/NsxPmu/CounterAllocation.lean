import NsxPmu.PmuDriver
import NsxPmu.Lib.ConsecutiveIntervals

set_option autoImplicit false

/-!
# Which counters an event gets

The three loops of `nsx_pmu_init` place the enabled 32-bit slots and then the
enabled 16-bit slots one after another, two counters or one each. The placement
says everything the read-out needs to know about the driver's state.
-/
namespace NsxPmu
open Function (update)
open ConsecutiveIntervals

theorem counterMask_bit (i m : ℕ) :
    (counterMask i).getLsbD m = (decide (i < 32) && decide (i = m)) :=
  BitVec.getLsbD_twoPow i m

theorem mask_test {mask : Word} {i : ℕ} (hi : i < 32) :
    mask &&& counterMask i = 0 ↔ mask.getLsbD i = false := by
  change mask &&& BitVec.twoPow 32 i = 0#32 ↔ _
  rw [BitVec.and_twoPow]
  cases hb : mask.getLsbD i with
  | false => simp
  | true =>
    simp only [ite_true, Bool.true_eq_false, iff_false]
    intro zero
    have bit := congrArg (fun w => BitVec.getLsbD w i) zero
    simp [hi] at bit

theorem validCounters_bit {m : ℕ} (h : m < 32) :
    validCounters.getLsbD m = decide (m = 31 ∨ m < 8) := by
  have all : ∀ k : Fin 32, validCounters.getLsbD k.val = decide (k.val = 31 ∨ k.val < 8) := by decide
  exact all ⟨m, h⟩

theorem ccntrMask_bit {m : ℕ} (h : m < 32) : ccntrMask.getLsbD m = decide (m = 31) := by
  have all : ∀ k : Fin 32, ccntrMask.getLsbD k.val = decide (k.val = 31) := by decide
  exact all ⟨m, h⟩

theorem valid_mask {mask : Word} (h : ∀ m < 32, mask.getLsbD m = true → m = 31 ∨ m < 8) :
    mask &&& ~~~validCounters = 0 := by
  apply BitVec.eq_of_getLsbD_eq
  intro m hm
  rw [BitVec.getLsbD_and, BitVec.getLsbD_not, validCounters_bit hm]
  cases hb : mask.getLsbD m with
  | false => simp
  | true => simp [h m hm hb, hm]

/-- The counters a slot takes when it is enabled. -/
def width (events : ℕ → PmuEvent) (i : ℕ) : ℕ :=
  if (events i).counterSize = .size32 then 2 else 1

def enabledSlots (events : ℕ → PmuEvent) (size : CounterSize) : List ℕ :=
  (List.range maxCounters).filter fun i => (events i).enabled && (events i).counterSize == size

/-- The order in which the slots get their counters. -/
def allocationOrder (events : ℕ → PmuEvent) : List ℕ :=
  enabledSlots events .size32 ++ enabledSlots events .size16

theorem mem_enabledSlots {events : ℕ → PmuEvent} {size : CounterSize} {i : ℕ} :
    i ∈ enabledSlots events size ↔
      i < maxCounters ∧ (events i).enabled = true ∧ (events i).counterSize = size := by
  simp [enabledSlots, List.mem_filter]

theorem mem_allocationOrder {events : ℕ → PmuEvent} {i : ℕ} :
    i ∈ allocationOrder events ↔ i < maxCounters ∧ (events i).enabled = true ∧
      ((events i).counterSize = .size32 ∨ (events i).counterSize = .size16) := by
  simp only [allocationOrder, List.mem_append, mem_enabledSlots]
  tauto

theorem enabledSlots_nodup (events : ℕ → PmuEvent) (size : CounterSize) :
    (enabledSlots events size).Nodup :=
  List.nodup_range.filter _

theorem allocationOrder_nodup (events : ℕ → PmuEvent) : (allocationOrder events).Nodup := by
  refine (enabledSlots_nodup _ _).append (enabledSlots_nodup _ _) ?_
  intro i h32 h16
  have a := (mem_enabledSlots.mp h32).2.2
  have b := (mem_enabledSlots.mp h16).2.2
  rw [a] at b
  cases b

structure Claims (events : ℕ → PmuEvent) (a b : Allocation) (l : List ℕ) : Prop where
  total : b.total = a.total + extent (width events) l
  index : ∀ p ∈ place (width events) a.total l, b.configIndex p.2 = p.1
  types : ∀ p ∈ place (width events) a.total l, b.eventTypes p.2 = (events p.1).eventId
  chained : ∀ p ∈ place (width events) a.total l,
    (events p.1).counterSize = .size32 → b.eventTypes (p.2 + 1) = armPmuChain
  outside : ∀ m, m < a.total ∨ b.total ≤ m → b.eventTypes m = a.eventTypes m
  unindexed : ∀ m, (∀ p ∈ place (width events) a.total l, p.2 ≠ m) →
    b.configIndex m = a.configIndex m
  mask : ∀ m < 32, b.mask.getLsbD m = true ↔
    a.mask.getLsbD m = true ∨ a.total ≤ m ∧ m < b.total
  added : ∀ i, (b.counter i).added = true ↔ (a.counter i).added = true ∨ i ∈ l
  kept : ∀ i, (b.counter i).mapIndex = (a.counter i).mapIndex ∧
    (b.counter i).counterValue = (a.counter i).counterValue

theorem Claims.refl (events : ℕ → PmuEvent) (a : Allocation) : Claims events a a [] where
  total := by simp
  index := by simp
  types := by simp
  chained := by simp
  outside := fun _ _ => rfl
  unindexed := fun _ _ => rfl
  mask := by
    intro m _
    constructor
    · exact .inl
    · rintro (h | h)
      · exact h
      · omega
  added := by simp
  kept := fun _ => ⟨rfl, rfl⟩

theorem width_pos (events : ℕ → PmuEvent) (i : ℕ) : 1 ≤ width events i := by
  unfold width
  split <;> omega

theorem width_of_size32 {events : ℕ → PmuEvent} {i : ℕ} (h : (events i).counterSize = .size32) :
    width events i = 2 := by
  simp [width, h]

theorem Claims.trans {events : ℕ → PmuEvent} {a b c : Allocation} {l k : List ℕ}
    (h : Claims events a b l) (h' : Claims events b c k) : Claims events a c (l ++ k) := by
  have hb := h.total
  have hc := h'.total
  have split : place (width events) a.total (l ++ k) =
      place (width events) a.total l ++ place (width events) b.total k := by
    rw [place_append, hb]
  -- the first group's counters lie below `b.total`, where the second group changes nothing
  have below : ∀ p ∈ place (width events) a.total l, p.2 + width events p.1 ≤ b.total := by
    intro p hp
    rw [hb]
    exact (place_bounds hp).2
  refine ⟨?_, ?_, ?_, ?_, ?_, ?_, ?_, ?_, ?_⟩
  · rw [hc, hb, extent_append, Nat.add_assoc]
  · intro p hp
    rw [split, List.mem_append] at hp
    rcases hp with hp | hp
    · have := width_pos events p.1
      have := below p hp
      rw [h'.unindexed p.2 fun q hq => by have := (place_bounds hq).1; omega]
      exact h.index p hp
    · exact h'.index p hp
  · intro p hp
    rw [split, List.mem_append] at hp
    rcases hp with hp | hp
    · have := width_pos events p.1
      have := below p hp
      rw [h'.outside p.2 (by omega)]
      exact h.types p hp
    · exact h'.types p hp
  · intro p hp wide
    rw [split, List.mem_append] at hp
    rcases hp with hp | hp
    · have := width_of_size32 wide
      have := below p hp
      rw [h'.outside (p.2 + 1) (by omega)]
      exact h.chained p hp wide
    · exact h'.chained p hp wide
  · intro m hm
    exact (h'.outside m (by omega)).trans (h.outside m (by omega))
  · intro m free
    rw [split] at free
    exact (h'.unindexed m fun q hq => free q (by simp [hq])).trans
      (h.unindexed m fun q hq => free q (by simp [hq]))
  · intro m hm
    rw [h'.mask m hm, h.mask m hm, or_assoc]
    apply or_congr_right
    omega
  · intro i
    rw [h'.added i, h.added i, or_assoc, List.mem_append]
  · intro i
    exact ⟨(h'.kept i).1.trans (h.kept i).1, (h'.kept i).2.trans (h.kept i).2⟩

theorem Allocation.setAdded_added (a : Allocation) (i j : ℕ) :
    ((a.setAdded i).counter j).added = true ↔ (a.counter j).added = true ∨ j ∈ [i] := by
  rw [List.mem_singleton]
  by_cases here : j = i
  · subst here
    simp [Allocation.setAdded]
  · simp [Allocation.setAdded, here]

theorem Allocation.setAdded_kept (a : Allocation) (i j : ℕ) :
    ((a.setAdded i).counter j).mapIndex = (a.counter j).mapIndex ∧
    ((a.setAdded i).counter j).counterValue = (a.counter j).counterValue := by
  by_cases here : j = i
  · subst here
    simp [Allocation.setAdded]
  · simp [Allocation.setAdded, here]

theorem allocate32_claims {events : ℕ → PmuEvent} {a : Allocation} {i : ℕ}
    (hi : (events i).enabled = true) (size : (events i).counterSize = .size32)
    (fresh : (a.counter i).added = false) (room : a.total + 2 ≤ 32) :
    Claims events a (allocate32 events a i) [i] := by
  have two := width_of_size32 size
  have result : allocate32 events a i =
      (((a.setIndex i).take (events i).eventId).take armPmuChain).setAdded i := by
    simp [allocate32, hi, size, fresh]
  rw [result]
  refine ⟨?_, ?_, ?_, ?_, ?_, ?_, ?_, ?_, ?_⟩
  · simp [Allocation.take, Allocation.setIndex, Allocation.setAdded, two]
  · simp [Allocation.take, Allocation.setIndex, Allocation.setAdded]
  · simp [Allocation.take, Allocation.setIndex, Allocation.setAdded, update]
  · simp [Allocation.take, Allocation.setIndex, Allocation.setAdded]
  · intro m hm
    simp only [Allocation.take, Allocation.setIndex, Allocation.setAdded] at hm ⊢
    rw [Function.update_of_ne (by omega), Function.update_of_ne (by omega)]
  · intro m free
    exact Function.update_of_ne (free (i, a.total) (by simp)).symm _ _
  · intro m hm
    simp only [Allocation.take, Allocation.setIndex, Allocation.setAdded, BitVec.getLsbD_or,
      counterMask_bit, Bool.or_eq_true, Bool.and_eq_true, decide_eq_true_eq, or_assoc]
    apply or_congr_right
    omega
  · exact fun j => Allocation.setAdded_added _ i j
  · exact fun j => Allocation.setAdded_kept _ i j

theorem allocate16_claims {events : ℕ → PmuEvent} {a : Allocation} {i : ℕ}
    (hi : (events i).enabled = true) (size : (events i).counterSize = .size16)
    (fresh : (a.counter i).added = false) (room : a.total + 1 ≤ 32) :
    Claims events a (allocate16 events a i) [i] := by
  have one : width events i = 1 := by simp [width, size]
  have result : allocate16 events a i =
      ((a.setIndex i).take (events i).eventId).setAdded i := by
    simp [allocate16, hi, size, fresh]
  rw [result]
  refine ⟨?_, ?_, ?_, ?_, ?_, ?_, ?_, ?_, ?_⟩
  · simp [Allocation.take, Allocation.setIndex, Allocation.setAdded, one]
  · simp [Allocation.take, Allocation.setIndex, Allocation.setAdded]
  · simp [Allocation.take, Allocation.setIndex, Allocation.setAdded]
  · simp [size]
  · intro m hm
    simp only [Allocation.take, Allocation.setIndex, Allocation.setAdded] at hm ⊢
    exact Function.update_of_ne (by omega) _ _
  · intro m free
    exact Function.update_of_ne (free (i, a.total) (by simp)).symm _ _
  · intro m hm
    simp only [Allocation.take, Allocation.setIndex, Allocation.setAdded, BitVec.getLsbD_or,
      counterMask_bit, Bool.or_eq_true, Bool.and_eq_true, decide_eq_true_eq]
    apply or_congr_right
    omega
  · exact fun j => Allocation.setAdded_added _ i j
  · exact fun j => Allocation.setAdded_kept _ i j

theorem foldl_claims {events : ℕ → PmuEvent} {f : Allocation → ℕ → Allocation} {chosen : ℕ → Bool}
    (skip : ∀ a i, chosen i = false → f a i = a)
    (grant : ∀ a i, chosen i = true → (a.counter i).added = false →
      a.total + width events i ≤ 32 → Claims events a (f a i) [i])
    (l : List ℕ) (a : Allocation) (nodup : l.Nodup)
    (fresh : ∀ i ∈ l, chosen i = true → (a.counter i).added = false)
    (room : a.total + extent (width events) (l.filter chosen) ≤ 32) :
    Claims events a (l.foldl f a) (l.filter chosen) := by
  induction l generalizing a with
  | nil => exact .refl events a
  | cons i l ih =>
    rw [List.nodup_cons] at nodup
    rw [List.foldl_cons]
    cases hi : chosen i with
    | false =>
      rw [skip a i hi, List.filter_cons_of_neg (by simp [hi])]
      rw [List.filter_cons_of_neg (by simp [hi])] at room
      exact ih a nodup.2 (fun j hj => fresh j (by simp [hj])) room
    | true =>
      rw [List.filter_cons_of_pos hi] at room ⊢
      rw [extent_cons] at room
      have first := grant a i hi (fresh i (by simp) hi) (by omega)
      have total := first.total
      simp only [extent_cons, extent_nil] at total
      refine first.trans (ih _ nodup.2 ?_ (by omega))
      intro j hj chosenj
      have other : j ≠ i := fun eq => nodup.1 (eq ▸ hj)
      have old := fresh j (by simp [hj]) chosenj
      rw [← Bool.not_eq_true, first.added j]
      simp [old, other]

theorem allocateCounters_claims (events : ℕ → PmuEvent) {a : Allocation}
    (fresh : ∀ i < maxCounters, (a.counter i).added = false)
    (room : a.total + extent (width events) (allocationOrder events) ≤ 32) :
    Claims events a (allocateCounters events a) (allocationOrder events) := by
  rw [allocationOrder, extent_append] at room
  have wide : Claims events a ((List.range maxCounters).foldl (allocate32 events) a)
      (enabledSlots events .size32) := by
    apply foldl_claims
    · intro b i hi
      simp only [Bool.and_eq_false_iff, beq_eq_false_iff_ne] at hi
      rcases hi with hi | hi <;> simp [allocate32, hi]
    · intro b i hi hb room
      simp only [Bool.and_eq_true, beq_iff_eq] at hi
      rw [width_of_size32 hi.2] at room
      exact allocate32_claims hi.1 hi.2 hb room
    · exact List.nodup_range
    · exact fun i hi _ => fresh i (List.mem_range.mp hi)
    · change a.total + extent (width events) (enabledSlots events .size32) ≤ 32
      omega
  have total := wide.total
  refine wide.trans ?_
  apply foldl_claims
  · intro b i hi
    simp only [Bool.and_eq_false_iff, beq_eq_false_iff_ne] at hi
    rcases hi with hi | hi <;> simp [allocate16, hi]
  · intro b i hi hb room
    simp only [Bool.and_eq_true, beq_iff_eq] at hi
    have one : width events i = 1 := by simp [width, hi.2]
    exact allocate16_claims hi.1 hi.2 hb (by omega)
  · exact List.nodup_range
  · intro i hi chosen
    simp only [Bool.and_eq_true, beq_iff_eq] at chosen
    have old := fresh i (List.mem_range.mp hi)
    rw [← Bool.not_eq_true, wide.added i, mem_enabledSlots]
    simp [old, chosen.2]
  · change _ + extent (width events) (enabledSlots events .size16) ≤ 32
    omega

end NsxPmu
