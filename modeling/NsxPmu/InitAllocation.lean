import NsxPmu.DriverAgreement

set_option autoImplicit false

/-!
# Which calls of `nsx_pmu_init` succeed, and what they allocate

The acceptance test and the two allocation loops of `nsx_pmu_init` count the
counters separately. They agree for every mix of enabled slots, so the positions
of all slots can be written down, and none lies outside the eight-entry arrays.
-/
namespace NsxPmu
open Function (update)
open ConsecutiveIntervals

variable {H : Type} {P : Platform H} {cfg : PmuConfig} {s : Pmu H} {events : ℕ → PmuEvent}

def wideSlots (events : ℕ → PmuEvent) : ℕ := (enabledSlots events .size32).length

def narrowSlots (events : ℕ → PmuEvent) : ℕ := (enabledSlots events .size16).length

def usedCounters (events : ℕ → PmuEvent) : ℕ := 2 * wideSlots events + narrowSlots events

theorem enabledSlots_width32 (events : ℕ → PmuEvent) :
    ∀ i ∈ enabledSlots events .size32, width events i = 2 := by
  intro i hi
  exact width_of_size32 (mem_enabledSlots.mp hi).2.2

theorem enabledSlots_width16 (events : ℕ → PmuEvent) :
    ∀ i ∈ enabledSlots events .size16, width events i = 1 := by
  intro i hi
  simp [width, (mem_enabledSlots.mp hi).2.2]

theorem extent_wide (events : ℕ → PmuEvent) :
    extent (width events) (enabledSlots events .size32) = 2 * wideSlots events :=
  extent_const (enabledSlots_width32 events)

theorem extent_narrow (events : ℕ → PmuEvent) :
    extent (width events) (enabledSlots events .size16) = narrowSlots events := by
  rw [extent_const (enabledSlots_width16 events), Nat.one_mul, narrowSlots]

theorem extent_allocationOrder (events : ℕ → PmuEvent) :
    extent (width events) (allocationOrder events) = usedCounters events := by
  rw [allocationOrder, extent_append, extent_wide, extent_narrow, usedCounters]

theorem place_wide {k i : ℕ} (hk : (enabledSlots events .size32)[k]? = some i) :
    (i, 2 * k) ∈ place (width events) 0 (allocationOrder events) := by
  have placed := place_const (n := 0) (enabledSlots_width32 events) hk
  rw [Nat.zero_add] at placed
  rw [allocationOrder, place_append, List.mem_append]
  exact .inl placed

theorem place_narrow {j i : ℕ} (hj : (enabledSlots events .size16)[j]? = some i) :
    (i, 2 * wideSlots events + j) ∈ place (width events) 0 (allocationOrder events) := by
  have placed := place_const (n := 0 + extent (width events) (enabledSlots events .size32))
    (enabledSlots_width16 events) hj
  rw [Nat.zero_add, extent_wide, Nat.one_mul] at placed
  rw [allocationOrder, place_append, List.mem_append, Nat.zero_add, extent_wide]
  exact .inr placed

def Owns (events : ℕ → PmuEvent) (i m : ℕ) : Prop :=
  (∃ k, (enabledSlots events .size32)[k]? = some i ∧ (m = 2 * k ∨ m = 2 * k + 1)) ∨
  ∃ j, (enabledSlots events .size16)[j]? = some i ∧ m = 2 * wideSlots events + j

theorem Owns.unique {i i' m : ℕ} (h : Owns events i m) (h' : Owns events i' m) : i = i' := by
  have bound {k n : ℕ} (hk : (enabledSlots events .size32)[k]? = some n) : k < wideSlots events :=
    (List.getElem?_eq_some_iff.mp hk).1
  rcases h with ⟨k, hk, at_k⟩ | ⟨j, hj, rfl⟩ <;> rcases h' with ⟨k', hk', at_k'⟩ | ⟨j', hj', at_j'⟩
  · obtain rfl : k = k' := by omega
    exact Option.some.inj (hk.symm.trans hk')
  · have := bound hk
    omega
  · have := bound hk'
    omega
  · obtain rfl : j = j' := by omega
    exact Option.some.inj (hj.symm.trans hj')

theorem owns_iff_used {m : ℕ} : (∃ i, Owns events i m) ↔ m < usedCounters events := by
  unfold usedCounters
  constructor
  · rintro ⟨i, ⟨k, hk, at_k⟩ | ⟨j, hj, rfl⟩⟩
    · have := (List.getElem?_eq_some_iff.mp hk).1
      change k < wideSlots events at this
      omega
    · have := (List.getElem?_eq_some_iff.mp hj).1
      change j < narrowSlots events at this
      omega
  · intro hm
    by_cases wide : m < 2 * wideSlots events
    · have hk : m / 2 < (enabledSlots events .size32).length := by
        change m / 2 < wideSlots events
        omega
      exact ⟨_, .inl ⟨m / 2, List.getElem?_eq_getElem hk, by omega⟩⟩
    · have hj : m - 2 * wideSlots events < (enabledSlots events .size16).length := by
        change _ < narrowSlots events
        omega
      exact ⟨_, .inr ⟨m - 2 * wideSlots events, List.getElem?_eq_getElem hj, by omega⟩⟩

/-- What the caller asked for is possible, and the layers below accept it. -/
structure InitAccepts (P : Platform H) (cfg : PmuConfig) (s : Pmu H) (api : CoreApi) : Prop where
  version : cfg.api = some api
  checked :
    (P.coreCheckApi api pmuOldestSupportedVersion pmuCurrentVersion s.hw).1 = statusSuccess
  sizes : ∀ i < maxCounters, (cfg.events i).enabled = true →
    (cfg.events i).counterSize = .size32 ∨ (cfg.events i).counterSize = .size16
  fits : usedCounters cfg.events ≤ maxCounters
  known : ∀ i < maxCounters, (cfg.events i).enabled = true →
    ∃ m < pmuMapSize, mapEventId m = (cfg.events i).eventId
  enabled : (P.ambiqPmuEnable
    (P.coreCheckApi api pmuOldestSupportedVersion pmuCurrentVersion s.hw).2).1 = 0
  programmed : (P.ambiqPmuInit (stageConfig cfg s.driver).2.2.ambiqPmuConfig (P.ambiqPmuEnable
    (P.coreCheckApi api pmuOldestSupportedVersion pmuCurrentVersion s.hw).2).2).1 = 0

theorem countCounters_range {total : ℕ} :
    countCounters events (List.range maxCounters) 0 = some total ↔
      (∀ i < maxCounters, (events i).enabled = true →
        (events i).counterSize = .size32 ∨ (events i).counterSize = .size16) ∧
      usedCounters events = total := by
  have count : 0 + extent (width events) (enabledSlots events .size32) +
      extent (width events) (enabledSlots events .size16) = usedCounters events := by
    rw [extent_wide, extent_narrow, Nat.zero_add, usedCounters]
  rw [countCounters_eq_some]
  change (_ ∧ 0 + extent (width events) (enabledSlots events .size32) +
    extent (width events) (enabledSlots events .size16) = total) ↔ _
  rw [count]
  simp only [List.mem_range]

theorem acceptedHw_eq_some {hw hw' : H} : acceptedHw P cfg hw = some hw' ↔
    ∃ api, cfg.api = some api ∧
      (P.coreCheckApi api pmuOldestSupportedVersion pmuCurrentVersion hw).1 = statusSuccess ∧
      (∀ i < maxCounters, (cfg.events i).enabled = true →
        (cfg.events i).counterSize = .size32 ∨ (cfg.events i).counterSize = .size16) ∧
      usedCounters cfg.events ≤ maxCounters ∧
      hw' = (P.coreCheckApi api pmuOldestSupportedVersion pmuCurrentVersion hw).2 := by
  constructor
  · intro accepts
    obtain ⟨total, counted, fits⟩ := acceptedHw_counted accepts
    obtain ⟨sizes, rfl⟩ := countCounters_range.mp counted
    unfold acceptedHw at accepts
    cases version : cfg.api with
    | none => simp [version] at accepts
    | some api =>
      simp only [version] at accepts
      by_cases checked :
          (P.coreCheckApi api pmuOldestSupportedVersion pmuCurrentVersion hw).1 = statusSuccess
      · simp only [checked, ne_eq, not_true_eq_false, if_false, counted,
          if_neg (Nat.not_lt.mpr fits), Option.some.injEq] at accepts
        exact ⟨api, rfl, checked, sizes, fits, accepts.symm⟩
      · simp [checked] at accepts
  · rintro ⟨api, version, checked, sizes, fits, rfl⟩
    have counted := countCounters_range.mpr ⟨sizes, rfl⟩
    unfold acceptedHw
    simp only [version, checked, ne_eq, not_true_eq_false, if_false, counted,
      if_neg (Nat.not_lt.mpr fits)]

theorem getMapIndex_isSome_iff {eventId : Word} :
    (getMapIndex eventId).isSome ↔ ∃ m < pmuMapSize, mapEventId m = eventId := by
  constructor
  · intro found
    obtain ⟨m, hm⟩ := Option.isSome_iff_exists.mp found
    exact ⟨m, getMapIndex_some hm⟩
  · rintro ⟨m, hm, rfl⟩
    exact getMapIndex_isSome hm

theorem pmuInit_status_iff : (pmuInit P cfg s).1 = statusSuccess ↔
    ∃ hw, acceptedHw P cfg s.hw = some hw ∧ (stageConfig cfg s.driver).1 = none ∧
      (P.ambiqPmuEnable hw).1 = 0 ∧
      (P.ambiqPmuInit (stageConfig cfg s.driver).2.2.ambiqPmuConfig
        (P.ambiqPmuEnable hw).2).1 = 0 := by
  have outcome := pmuInitCall_outcome P cfg s
  change (pmuInitCall P cfg s).1 = statusSuccess ↔ _
  generalize pmuInitCall P cfg s = r at outcome
  obtain ⟨status, cfg', s'⟩ := r
  dsimp only at outcome ⊢
  cases outcome with
  | rejected accepts failed =>
    refine ⟨fun ok => absurd ok failed, ?_⟩
    rintro ⟨hw, other, -⟩
    rw [accepts] at other
    cases other
  | unknownEvent accepts unknown =>
    exact ⟨fun ok => absurd ok statusInvalidConfig_ne, fun ⟨_, _, known, _⟩ => absurd known unknown⟩
  | enableFailed accepts known failed =>
    refine ⟨fun ok => absurd ok statusInitFailed_ne, ?_⟩
    rintro ⟨hw, other, -, enabled, -⟩
    obtain rfl := Option.some.inj (accepts.symm.trans other)
    exact absurd enabled failed
  | initFailed accepts known enabled failed =>
    refine ⟨fun ok => absurd ok statusInitFailed_ne, ?_⟩
    rintro ⟨hw, other, -, -, programmed⟩
    obtain rfl := Option.some.inj (accepts.symm.trans other)
    exact absurd programmed failed
  | programmed accepts known enabled ok => exact ⟨fun _ => ⟨_, accepts, known, enabled, ok⟩, fun _ => rfl⟩

theorem pmuInit_success_iff :
    (pmuInit P cfg s).1 = statusSuccess ↔ ∃ api, InitAccepts P cfg s api := by
  rw [pmuInit_status_iff]
  constructor
  · rintro ⟨hw, accepts, known, enabled, programmed⟩
    obtain ⟨api, version, checked, sizes, fits, rfl⟩ := acceptedHw_eq_some.mp accepts
    have ids := (stageConfig_known_iff cfg s.driver).mp known
    exact ⟨api, version, checked, sizes, fits, fun i hi on => getMapIndex_isSome_iff.mp (ids i hi on),
      enabled, programmed⟩
  · rintro ⟨api, accepts⟩
    refine ⟨_, acceptedHw_eq_some.mpr
      ⟨api, accepts.version, accepts.checked, accepts.sizes, accepts.fits, rfl⟩, ?_,
      accepts.enabled, accepts.programmed⟩
    rw [stageConfig_known_iff]
    exact fun i hi on => getMapIndex_isSome_iff.mpr (accepts.known i hi on)

/-- Where a successful call puts the slots of its configuration. -/
structure CountersAllocated (events : ℕ → PmuEvent) (cfg' : PmuConfig) (d : Driver) : Prop where
  wide : ∀ k i, (enabledSlots events .size32)[k]? = some i →
    d.configIndex (2 * k) = i ∧
    d.ambiqPmuConfig.eventTypes (2 * k) = (events i).eventId ∧
    d.ambiqPmuConfig.eventTypes (2 * k + 1) = armPmuChain
  narrow : ∀ j i, (enabledSlots events .size16)[j]? = some i →
    d.configIndex (2 * wideSlots events + j) = i ∧
    d.ambiqPmuConfig.eventTypes (2 * wideSlots events + j) = (events i).eventId
  owned : ∀ m, (∃ i, Owns events i m) ↔ m < usedCounters events
  unique : ∀ i i' m, Owns events i m → Owns events i' m → i = i'
  unused : ∀ m < maxCounters, (∀ i, ¬ Owns events i m) → d.ambiqPmuConfig.eventTypes m = 0xFFFF
  mask : ∀ m < 32, d.ambiqPmuConfig.counters.getLsbD m = true ↔
    m = 31 ∨ m < usedCounters events
  slots : ∀ i < maxCounters, (events i).enabled = true →
    (cfg'.counter i).added = true ∧ (cfg'.counter i).counterValue = 0 ∧
    (cfg'.counter i).mapIndex < pmuMapSize ∧
    mapEventId (cfg'.counter i).mapIndex = (events i).eventId

theorem pmuInit_allocated (ok : (pmuInit P cfg s).1 = statusSuccess) :
    CountersAllocated cfg.events (pmuInit P cfg s).2.1 (pmuInit P cfg s).2.2.driver := by
  have staged := (pmuInit_session ok).staged
  have layout := staged.layout
  refine ⟨?_, ?_, fun _ => owns_iff_used, fun _ _ _ => Owns.unique, ?_, ?_, ?_⟩
  · intro k i hk
    have placed := place_wide hk
    have size := (mem_enabledSlots.mp (List.mem_of_getElem? hk)).2.2
    exact ⟨layout.index _ placed, layout.types _ placed, layout.chained _ placed size⟩
  · intro j i hj
    have placed := place_narrow hj
    exact ⟨layout.index _ placed, layout.types _ placed⟩
  · intro m hm free
    apply layout.unused m hm
    rw [extent_allocationOrder]
    by_contra used
    obtain ⟨i, owner⟩ := owns_iff_used.mpr (Nat.lt_of_not_le used)
    exact free i owner
  · intro m hm
    rw [layout.counters m hm, extent_allocationOrder]
  · intro i hi on
    have slot := staged.slots i hi on
    exact ⟨(staged.added i hi).mpr slot, staged.cleared i hi, getMapIndex_some (staged.mapped i hi on)⟩

theorem resolveEvents_outside {l : List ℕ} (counter : ℕ → PmuCounter) (types : ℕ → Word) {i : ℕ}
    (hi : i ∉ l) : (resolveEvents events l counter types).2.1 i = counter i ∧
      (resolveEvents events l counter types).2.2 i = types i := by
  induction l generalizing counter types with
  | nil => exact ⟨rfl, rfl⟩
  | cons j l ih =>
    have other : i ≠ j := fun eq => hi (by simp [eq])
    have rest : i ∉ l := fun member => hi (by simp [member])
    rw [resolveEvents]
    dsimp only
    split
    · obtain ⟨values, typed⟩ := ih (update counter j _) (update types j _) rest
      rw [values, typed, Function.update_of_ne other, Function.update_of_ne other]
      exact ⟨rfl, rfl⟩
    · split
      · exact ⟨Function.update_of_ne other _ _, Function.update_of_ne other _ _⟩
      · obtain ⟨values, typed⟩ := ih (update (update counter j _) j _) (update types j _) rest
        rw [values, typed, Function.update_of_ne other, Function.update_of_ne other,
          Function.update_of_ne other]
        exact ⟨rfl, rfl⟩

/-- Nothing was written behind the end of the eight-entry arrays. -/
structure KeepsOutside (cfg cfg' : PmuConfig) (d d' : Driver) : Prop where
  events : ∀ i ≥ maxCounters, cfg'.events i = cfg.events i
  counter : ∀ i ≥ maxCounters, cfg'.counter i = cfg.counter i
  eventTypes : ∀ i ≥ maxCounters, d'.ambiqPmuConfig.eventTypes i = d.ambiqPmuConfig.eventTypes i
  configIndex : ∀ i ≥ maxCounters, d'.configIndex i = d.configIndex i

theorem Claims.unclaimed {events : ℕ → PmuEvent} {a b : Allocation} {l : List ℕ}
    (claims : Claims events a b l) {i : ℕ} (outside : i ∉ l) : b.counter i = a.counter i := by
  have added := claims.added i
  simp only [outside, or_false] at added
  have flag : (b.counter i).added = (a.counter i).added := Bool.eq_iff_iff.mpr added
  obtain ⟨mapIndex, counterValue⟩ := claims.kept i
  calc
    b.counter i = ⟨(b.counter i).added, (b.counter i).mapIndex, (b.counter i).counterValue⟩ := rfl
    _ = a.counter i := by rw [flag, mapIndex, counterValue]

theorem stageConfig_outside {d : Driver} (fits : usedCounters cfg.events ≤ maxCounters) :
    KeepsOutside cfg (stageConfig cfg d).2.1 d (stageConfig cfg d).2.2 := by
  have above {i : ℕ} (hi : i ≥ maxCounters) : i ∉ List.range maxCounters := by
    rw [List.mem_range]
    omega
  cases found : (resolveEvents cfg.events (List.range maxCounters) cfg.counter
      d.ambiqPmuConfig.eventTypes).1 with
  | some eventId =>
    simp only [stageConfig, found]
    exact ⟨fun _ _ => rfl, fun i hi => (resolveEvents_outside _ _ (above hi)).1,
      fun i hi => (resolveEvents_outside _ _ (above hi)).2, fun _ _ => rfl⟩
  | none =>
    simp only [stageConfig, found]
    have kept : ∀ i ≥ maxCounters, _ := fun i hi => @resolveEvents_outside cfg.events _ cfg.counter
      d.ambiqPmuConfig.eventTypes i (above hi)
    obtain ⟨-, values, -⟩ := resolveEvents_known cfg.counter d.ambiqPmuConfig.eventTypes
      List.nodup_range (resolveEvents_none found)
    generalize (resolveEvents cfg.events (List.range maxCounters) cfg.counter
      d.ambiqPmuConfig.eventTypes).2.1 = counter at values kept ⊢
    generalize (resolveEvents cfg.events (List.range maxCounters) cfg.counter
      d.ambiqPmuConfig.eventTypes).2.2 = types at kept ⊢
    have claims := allocateCounters_claims cfg.events
      (a := ⟨0, ccntrMask, types, d.configIndex, counter⟩)
      (by intro i hi; simp [values i, hi])
      (by rw [extent_allocationOrder]; dsimp only [maxCounters] at fits ⊢; omega)
    generalize allocateCounters cfg.events ⟨0, ccntrMask, types, d.configIndex, counter⟩ = a
      at claims ⊢
    have total := claims.total
    rw [extent_allocationOrder] at total
    refine ⟨fun _ _ => rfl, ?_, ?_, ?_⟩
    · intro i hi
      have outside : i ∉ allocationOrder cfg.events := by
        intro member
        have := (mem_allocationOrder.mp member).1
        omega
      exact (claims.unclaimed outside).trans (kept i hi).1
    · intro i hi
      have same := claims.outside i (by dsimp only at total ⊢; omega)
      exact same.trans (kept i hi).2
    · intro i hi
      apply claims.unindexed i
      intro p hp eq
      have bounds := (place_bounds hp).2
      have := width_pos cfg.events p.1
      rw [extent_allocationOrder] at bounds
      dsimp only at bounds
      omega

theorem pmuInit_outside (P : Platform H) (cfg : PmuConfig) (s : Pmu H) :
    KeepsOutside cfg (pmuInit P cfg s).2.1 s.driver (pmuInit P cfg s).2.2.driver := by
  have outcome := pmuInitCall_outcome P cfg s
  change KeepsOutside cfg (pmuInitCall P cfg s).2.1 s.driver (pmuInitCall P cfg s).2.2.driver
  generalize pmuInitCall P cfg s = r at outcome
  obtain ⟨status, cfg', s'⟩ := r
  dsimp only at outcome ⊢
  have staged {hw : H} (accepts : acceptedHw P cfg s.hw = some hw) :
      KeepsOutside cfg (stageConfig cfg s.driver).2.1 s.driver (stageConfig cfg s.driver).2.2 := by
    obtain ⟨api, -, -, -, fits, -⟩ := acceptedHw_eq_some.mp accepts
    exact stageConfig_outside fits
  cases outcome with
  | rejected accepts failed driver =>
    rw [driver]
    exact ⟨fun _ _ => rfl, fun _ _ => rfl, fun _ _ => rfl, fun _ _ => rfl⟩
  | unknownEvent accepts unknown driver => rw [driver]; exact staged accepts
  | enableFailed accepts known failed driver => rw [driver]; exact staged accepts
  | initFailed accepts known enabled failed driver => rw [driver]; exact staged accepts
  | programmed accepts known enabled ok driver =>
    rw [driver]
    obtain ⟨events, counter, types, index⟩ := staged accepts
    exact ⟨events, counter, types, index⟩

/-- Two configurations with the same content of their eight-entry arrays. -/
structure SameSlots (cfg cfg' : PmuConfig) : Prop where
  api : cfg'.api = cfg.api
  events : ∀ i < maxCounters, cfg'.events i = cfg.events i
  counter : ∀ i < maxCounters, cfg'.counter i = cfg.counter i

structure SameAllocation (a a' : Allocation) : Prop where
  total : a'.total = a.total
  mask : a'.mask = a.mask
  eventTypes : a'.eventTypes = a.eventTypes
  configIndex : a'.configIndex = a.configIndex
  counter : ∀ i < maxCounters, a'.counter i = a.counter i

section SameSlots
variable {events' : ℕ → PmuEvent} {a a' : Allocation} {i : ℕ}

theorem update_below {c c' : ℕ → PmuCounter} {v v' : PmuCounter}
    (values : ∀ j < maxCounters, c' j = c j) (new : v' = v) :
    ∀ j < maxCounters, update c' i v' j = update c i v j := by
  intro j hj
  by_cases here : j = i
  · subst here
    rw [Function.update_self, Function.update_self, new]
  · rw [Function.update_of_ne here, Function.update_of_ne here, values j hj]

theorem SameAllocation.setIndex (h : SameAllocation a a') : SameAllocation (a.setIndex i) (a'.setIndex i) where
  total := h.total
  mask := h.mask
  eventTypes := h.eventTypes
  configIndex := by
    dsimp only [Allocation.setIndex]
    rw [h.configIndex, h.total]
  counter := h.counter

theorem SameAllocation.take (h : SameAllocation a a') (eventType : Word) :
    SameAllocation (a.take eventType) (a'.take eventType) where
  total := by
    dsimp only [Allocation.take]
    rw [h.total]
  mask := by
    dsimp only [Allocation.take]
    rw [h.mask, h.total]
  eventTypes := by
    dsimp only [Allocation.take]
    rw [h.eventTypes, h.total]
  configIndex := h.configIndex
  counter := h.counter

theorem SameAllocation.setAdded (h : SameAllocation a a') (hi : i < maxCounters) :
    SameAllocation (a.setAdded i) (a'.setAdded i) where
  total := h.total
  mask := h.mask
  eventTypes := h.eventTypes
  configIndex := h.configIndex
  counter := update_below h.counter (by rw [h.counter i hi])

theorem SameAllocation.allocate32 (h : SameAllocation a a') (hi : i < maxCounters)
    (same : events' i = events i) :
    SameAllocation (allocate32 events a i) (NsxPmu.allocate32 events' a' i) := by
  unfold NsxPmu.allocate32
  rw [same, h.counter i hi]
  by_cases skipped : (!(events i).enabled || (a.counter i).added ||
      decide ((events i).counterSize ≠ .size32)) = true
  · rw [if_pos skipped, if_pos skipped]
    exact h
  · rw [if_neg skipped, if_neg skipped]
    exact ((h.setIndex.take _).take _).setAdded hi

theorem SameAllocation.allocate16 (h : SameAllocation a a') (hi : i < maxCounters)
    (same : events' i = events i) :
    SameAllocation (allocate16 events a i) (NsxPmu.allocate16 events' a' i) := by
  unfold NsxPmu.allocate16
  rw [same, h.counter i hi]
  by_cases skipped : (!(events i).enabled || (a.counter i).added ||
      decide ((events i).counterSize ≠ .size16)) = true
  · rw [if_pos skipped, if_pos skipped]
    exact h
  · rw [if_neg skipped, if_neg skipped]
    exact (h.setIndex.take _).setAdded hi

theorem SameAllocation.allocateCounters (h : SameAllocation a a')
    (same : ∀ i < maxCounters, events' i = events i) :
    SameAllocation (allocateCounters events a) (NsxPmu.allocateCounters events' a') := by
  unfold NsxPmu.allocateCounters
  apply List.foldl_rel
  · apply List.foldl_rel h
    intro i hi b b' hb
    have hi := List.mem_range.mp hi
    exact hb.allocate32 hi (same i hi)
  · intro i hi b b' hb
    have hi := List.mem_range.mp hi
    exact hb.allocate16 hi (same i hi)

theorem countCounters_congr {l : List ℕ} (same : ∀ i ∈ l, events' i = events i) (start : ℕ) :
    countCounters events' l start = countCounters events l start := by
  induction l generalizing start with
  | nil => rfl
  | cons i l ih =>
    have rest := ih fun j hj => same j (by simp [hj])
    rw [countCounters, countCounters, same i (by simp)]
    simp only [rest]

theorem resolveEvents_congr {l : List ℕ} {counter counter' : ℕ → PmuCounter} (types : ℕ → Word)
    (same : ∀ i ∈ l, events' i = events i) (inside : ∀ i ∈ l, i < maxCounters)
    (values : ∀ i < maxCounters, counter' i = counter i) :
    (resolveEvents events' l counter' types).1 = (resolveEvents events l counter types).1 ∧
    (∀ i < maxCounters, (resolveEvents events' l counter' types).2.1 i =
      (resolveEvents events l counter types).2.1 i) ∧
    (resolveEvents events' l counter' types).2.2 = (resolveEvents events l counter types).2.2 := by
  induction l generalizing counter counter' types with
  | nil => exact ⟨rfl, values, rfl⟩
  | cons j l ih =>
    have hj := inside j (by simp)
    have rest := fun c c' t => @ih c c' t (fun i hi => same i (by simp [hi]))
      (fun i hi => inside i (by simp [hi]))
    have cleared : ∀ i < maxCounters,
        update counter' j { counter' j with counterValue := 0, added := false } i =
          update counter j { counter j with counterValue := 0, added := false } i :=
      update_below values (by rw [values j hj])
    rw [resolveEvents, resolveEvents, same j (by simp)]
    dsimp only
    split
    · exact rest _ _ _ cleared
    · split
      · exact ⟨rfl, cleared, rfl⟩
      · apply rest
        apply update_below cleared
        have here := cleared j hj
        dsimp only at here ⊢
        rw [here]

end SameSlots

section
variable {cfg' : PmuConfig}

theorem stageConfig_congr (h : SameSlots cfg cfg') (d : Driver) :
    (stageConfig cfg' d).1 = (stageConfig cfg d).1 ∧
    SameSlots (stageConfig cfg d).2.1 (stageConfig cfg' d).2.1 ∧
    (stageConfig cfg' d).2.2 = (stageConfig cfg d).2.2 := by
  obtain ⟨found, values, types⟩ := resolveEvents_congr d.ambiqPmuConfig.eventTypes
    (fun i hi => h.events i (List.mem_range.mp hi)) (fun i hi => List.mem_range.mp hi) h.counter
  unfold stageConfig
  dsimp only
  rw [found, types]
  split
  · exact ⟨rfl, ⟨h.api, h.events, values⟩, rfl⟩
  · have start : SameAllocation
        ⟨0, ccntrMask, (resolveEvents cfg.events (List.range maxCounters) cfg.counter
          d.ambiqPmuConfig.eventTypes).2.2, d.configIndex, (resolveEvents cfg.events
          (List.range maxCounters) cfg.counter d.ambiqPmuConfig.eventTypes).2.1⟩
        ⟨0, ccntrMask, (resolveEvents cfg.events (List.range maxCounters) cfg.counter
          d.ambiqPmuConfig.eventTypes).2.2, d.configIndex, (resolveEvents cfg'.events
          (List.range maxCounters) cfg'.counter d.ambiqPmuConfig.eventTypes).2.1⟩ :=
      ⟨rfl, rfl, rfl, rfl, values⟩
    have same := start.allocateCounters h.events
    rw [same.mask, same.eventTypes, same.configIndex]
    exact ⟨rfl, ⟨h.api, h.events, same.counter⟩, rfl⟩

theorem programPmu_congr (P : Platform H) (h : SameSlots cfg cfg') (s : Pmu H) :
    (programPmu P cfg' s).1 = (programPmu P cfg s).1 ∧
    SameSlots (programPmu P cfg s).2.1 (programPmu P cfg' s).2.1 ∧
    (programPmu P cfg' s).2.2 = (programPmu P cfg s).2.2 := by
  obtain ⟨found, same, driver⟩ := stageConfig_congr h s.driver
  unfold programPmu
  dsimp only
  rw [found, driver]
  split
  · exact ⟨rfl, same, rfl⟩
  · split
    · exact ⟨rfl, same, rfl⟩
    · split
      · exact ⟨rfl, same, rfl⟩
      · exact ⟨rfl, same, rfl⟩

theorem pmuInitCall_congr (P : Platform H) (h : SameSlots cfg cfg') (s : Pmu H) :
    (pmuInitCall P cfg' s).1 = (pmuInitCall P cfg s).1 ∧
    SameSlots (pmuInitCall P cfg s).2.1 (pmuInitCall P cfg' s).2.1 ∧
    (pmuInitCall P cfg' s).2.2 = (pmuInitCall P cfg s).2.2 := by
  have counted := countCounters_congr (l := List.range maxCounters)
    (fun i hi => h.events i (List.mem_range.mp hi)) 0
  unfold pmuInitCall
  rw [h.api, counted]
  split
  · exact ⟨rfl, h, rfl⟩
  · dsimp only
    split
    · exact ⟨rfl, h, rfl⟩
    · split
      · exact ⟨rfl, h, rfl⟩
      · split
        · exact ⟨rfl, h, rfl⟩
        · exact programPmu_congr P h _

theorem pmuInit_congr (P : Platform H) (h : SameSlots cfg cfg') (s : Pmu H) :
    (pmuInit P cfg' s).1 = (pmuInit P cfg s).1 ∧
    SameSlots (pmuInit P cfg s).2.1 (pmuInit P cfg' s).2.1 ∧
    (pmuInit P cfg' s).2.2.driver = (pmuInit P cfg s).2.2.driver ∧
    (pmuInit P cfg' s).2.2.hw = (pmuInit P cfg s).2.2.hw := by
  obtain ⟨status, slots, state⟩ := pmuInitCall_congr P h s
  change (pmuInitCall P cfg' s).1 = (pmuInitCall P cfg s).1 ∧
    SameSlots (pmuInitCall P cfg s).2.1 (pmuInitCall P cfg' s).2.1 ∧
    (pmuInitCall P cfg' s).2.2.driver = (pmuInitCall P cfg s).2.2.driver ∧
    (pmuInitCall P cfg' s).2.2.hw = (pmuInitCall P cfg s).2.2.hw
  rw [state]
  exact ⟨status, slots, rfl, rfl⟩

end

/-- When `nsx_pmu_init` returns success, which counters it then gives to which slots, and that
it neither writes nor reads an entry behind the end of an eight-entry array. -/
theorem pmu_init_allocation (P : Platform H) (cfg : PmuConfig) (s : Pmu H) :
    ((pmuInit P cfg s).1 = statusSuccess ↔ ∃ api, InitAccepts P cfg s api) ∧
    ((pmuInit P cfg s).1 = statusSuccess →
      CountersAllocated cfg.events (pmuInit P cfg s).2.1 (pmuInit P cfg s).2.2.driver) ∧
    KeepsOutside cfg (pmuInit P cfg s).2.1 s.driver (pmuInit P cfg s).2.2.driver ∧
    ∀ cfg', SameSlots cfg cfg' →
      (pmuInit P cfg' s).1 = (pmuInit P cfg s).1 ∧
      SameSlots (pmuInit P cfg s).2.1 (pmuInit P cfg' s).2.1 ∧
      (pmuInit P cfg' s).2.2.driver = (pmuInit P cfg s).2.2.driver ∧
      (pmuInit P cfg' s).2.2.hw = (pmuInit P cfg s).2.2.hw := by
  exact ⟨pmuInit_success_iff, pmuInit_allocated, pmuInit_outside P cfg s,
    fun _ same => pmuInit_congr P same s⟩

/-- A 16-bit slot before two 32-bit slots gets the counter above them. -/
example :
    let events : ℕ → PmuEvent := fun i =>
      if i = 0 then ⟨true, mapEventId 13, .size16⟩
      else if i = 1 ∨ i = 5 then ⟨true, mapEventId i, .size32⟩
      else ⟨false, 0, .size16⟩
    let r := pmuInit steadyPlatform ⟨some pmuV1_0_0, events, PmuConfig.zero.counter⟩
      (driverStart RefPmu.start)
    r.1 = statusSuccess ∧ r.2.2.driver.configIndex 4 = 0 ∧ r.2.2.driver.configIndex 2 = 5 ∧
      r.2.2.driver.ambiqPmuConfig.counters = 0x8000001F := by
  decide +kernel

end NsxPmu
