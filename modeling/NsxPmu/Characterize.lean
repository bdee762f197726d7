import NsxPmu.PairedSlots
import NsxPmu.ReferencePmu

set_option autoImplicit false

/-!
# Characterizing a function

`nsx_pmu_characterize_function` measures all events of the table in batches of four,
with a call of the function for each batch, and prints what it has read.
-/
namespace NsxPmu

variable {H : Type} {P : Platform H} {evtyper : H → ℕ → Word} {func : H → H}

/-- What `nsx_pmu_print_counters` prints for the table entry `m` in a slot. -/
def eventLines (slot m : ℕ) (value : Word) : List String :=
  ["[" ++ toString slot ++ "] " ++ (pmuMapAt m).regname ++ "=" ++ toString value.toNat ++ "\r\n",
    "    " ++ (pmuMapAt m).description ++ "\r\n"]

def slotLines (cfg : PmuConfig) (i : ℕ) : List String :=
  if (cfg.events i).enabled then eventLines i (cfg.counter i).mapIndex (cfg.counter i).counterValue
  else []

theorem printSlots_eq (cfg : PmuConfig) (l : List ℕ) (s : Pmu H) :
    l.foldl (printSlot cfg) s = { s with console := s.console ++ l.flatMap (slotLines cfg) } := by
  induction l generalizing s with
  | nil => simp
  | cons i l ih =>
    rw [List.foldl_cons, ih, List.flatMap_cons, slotLines, printSlot]
    cases (cfg.events i).enabled with
    | false => simp
    | true => simp [Pmu.printf, eventLines]

theorem PairedSlots.printed {n : ℕ} {id : ℕ → Word} {cfg : PmuConfig}
    (slots : PairedSlots n id cfg.events) (few : n ≤ 4) (s : Pmu H) :
    (pmuPrintCounters cfg s).2 =
      { s with
          console := s.console ++ (List.range n).flatMap fun i =>
            eventLines i (cfg.counter i).mapIndex (cfg.counter i).counterValue } := by
  have on : (List.range n).flatMap (slotLines cfg) = (List.range n).flatMap fun i =>
      eventLines i (cfg.counter i).mapIndex (cfg.counter i).counterValue := by
    apply List.flatMap_congr
    intro i hi
    rw [slotLines, slots.on few (List.mem_range.mp hi)]
    rfl
  have off : ((List.range (maxCounters - n)).map (n + ·)).flatMap (slotLines cfg) = [] := by
    apply List.flatMap_eq_nil_iff.mpr
    intro i hi
    rw [slotLines, slots.off i hi]
    rfl
  rw [pmuPrintCounters]
  dsimp only
  rw [printSlots_eq, PairedSlots.range_split few, List.flatMap_append, on, off, List.append_nil]

def readHw (P : Platform H) (func : H → H) (x : Pmu H) : H :=
  pausedHw P { x with hw := func x.hw }

/-- The lines of the table entry `m`, whose values are read after the call number `m / 4`. -/
def entryLines (P : Platform H) (func : H → H) (invoked : List (Pmu H)) (m : ℕ) : List String :=
  (invoked[m / 4]?).elim [] fun x =>
    eventLines (m % 4) m (P.getEvcntr (2 * (m % 4)) (readHw P func x) +
      65536 * P.getEvcntr (2 * (m % 4) + 1) (readHw P func x))

def batchLength (m : ℕ) : ℕ := min 4 (70 - m)

def batchId (m i : ℕ) : Word := mapEventId (m + i)

theorem selectMapEvents_createUntil (m : ℕ) (l : List ℕ) (cfg : PmuConfig) :
    selectMapEvents m l cfg = createUntil (fun i => decide (m + i ≥ pmuMapSize))
      (fun i => mapEventId (m + i)) l cfg := by
  induction l generalizing cfg with
  | nil => rfl
  | cons i l ih =>
    rw [selectMapEvents, createUntil, ih]
    simp

theorem selectMapEvents_paired (m : ℕ) (old : PmuConfig) :
    selectMapEvents m (List.range characterizationBatchSize)
        { pmuResetConfig old with api := some pmuV1_0_0 } =
      pairedConfig (some pmuV1_0_0) old (batchLength m) (batchId m) := by
  have size : batchLength m = min 4 (70 - m) := rfl
  rw [selectMapEvents_createUntil]
  apply createUntil_paired (some pmuV1_0_0) old (by omega)
  · intro i hi
    rw [decide_eq_true_iff]
    dsimp only [pmuMapSize]
    omega
  · intro i _
    rfl

theorem batchLength_le (m : ℕ) : batchLength m ≤ 4 := Nat.min_le_left ..

def batchOf (old : PmuConfig) (m : ℕ) : PmuConfig :=
  pairedConfig (some pmuV1_0_0) old (batchLength m) (batchId m)

theorem batchOf_slots (old : PmuConfig) (m : ℕ) :
    PairedSlots (batchLength m) (batchId m) (batchOf old m).events :=
  pairedConfig_slots _ _ _ _

theorem batchId_known {m i : ℕ} (hi : i < batchLength m) :
    getMapIndex (batchId m i) = some (m + i) := by
  apply getMapIndex_mapEventId
  unfold batchLength at hi
  dsimp only [pmuMapSize]
  omega

def batchEntered (P : Platform H) (old : PmuConfig) (m : ℕ) (s : Pmu H) : Pmu H :=
  (pmuInit P (batchOf old m) s).2.2

def batchReadout (P : Platform H) (func : H → H) (old : PmuConfig) (m : ℕ) (s : Pmu H) :
    Status × PmuConfig × Pmu H :=
  pmuGetCounters P (pmuInit P (batchOf old m) s).2.1
    { batchEntered P old m s with hw := func (batchEntered P old m s).hw }

section Batch
variable {m : ℕ} {old : PmuConfig} {s : Pmu H}

theorem batchReadout_ready (func : H → H) (ok : (pmuInit P (batchOf old m) s).1 = statusSuccess) :
    (batchReadout P func old m s).1 = statusSuccess ∧
    PairedSlots (batchLength m) (batchId m) (batchReadout P func old m s).2.1.events ∧
    ∀ i < batchLength m, ((batchReadout P func old m s).2.1.counter i).mapIndex = m + i ∧
      ((batchReadout P func old m s).2.1.counter i).counterValue =
        pairReading P (readHw P func (batchEntered P old m s)) (2 * i) := by
  have few := batchLength_le m
  have slots := batchOf_slots old m
  have ready := pairsReady_of_init slots few ok
  have read := ready.getCounters (P := P) (s :=
    { batchEntered P old m s with hw := func (batchEntered P old m s).hw })
  obtain ⟨status, after, values⟩ := read
  refine ⟨status, after.slots, fun i hi => ⟨?_, values i hi⟩⟩
  have whole := (pmuGetCounters_layout (P := P) (s :=
    { batchEntered P old m s with hw := func (batchEntered P old m s).hw })
    ready.layout ready.initialized ready.profiling).1 _ (ready.slots.placed few hi)
  have on := slots.on few hi
  have found := (pmuInit_session ok).staged.mapped i (by dsimp only [maxCounters]; omega)
    (by rw [on])
  rw [on, batchId_known hi] at found
  unfold batchReadout
  rw [whole]
  exact (Option.some.inj found).symm

theorem batchReadout_frame (func : H → H) (ok : (pmuInit P (batchOf old m) s).1 = statusSuccess) :
    (batchReadout P func old m s).2.2.console = s.console ∧
    (batchReadout P func old m s).2.2.inits = (batchEntered P old m s).inits := by
  have frame := pmuGetCounters_frame P (pmuInit P (batchOf old m) s).2.1
    { batchEntered P old m s with hw := func (batchEntered P old m s).hw }
  exact ⟨frame.console.trans (pmuInit_silent ok), frame.inits⟩

end Batch

theorem characterizeBatch_failed (func : H → H) {m : ℕ} {x : Characterization H}
    (failed : (pmuInit P (batchOf x.cfg m) x.pmu).1 ≠ statusSuccess) :
    characterizeBatch P func m x =
      (false, ⟨(pmuInit P (batchOf x.cfg m) x.pmu).2.1, batchEntered P x.cfg m x.pmu, x.invoked⟩) := by
  unfold characterizeBatch
  rw [selectMapEvents_paired]
  exact if_pos failed

theorem characterizeBatch_ok (func : H → H) {m : ℕ} {x : Characterization H}
    (ok : (pmuInit P (batchOf x.cfg m) x.pmu).1 = statusSuccess) :
    ∃ r, characterizeBatch P func m x = (true, r) ∧
      r.invoked = x.invoked ++ [batchEntered P x.cfg m x.pmu] ∧
      r.pmu.inits = (batchEntered P x.cfg m x.pmu).inits ∧
      r.pmu.console = x.pmu.console ++ (List.range (batchLength m)).flatMap fun i =>
        eventLines i (m + i)
          (pairReading P (readHw P func (batchEntered P x.cfg m x.pmu)) (2 * i)) := by
  obtain ⟨status, slots, values⟩ := batchReadout_ready func ok
  obtain ⟨console, inits⟩ := batchReadout_frame func ok
  have printed := slots.printed (batchLength_le m) (batchReadout P func x.cfg m x.pmu).2.2
  have lines : ((List.range (batchLength m)).flatMap fun i =>
      eventLines i ((batchReadout P func x.cfg m x.pmu).2.1.counter i).mapIndex
        ((batchReadout P func x.cfg m x.pmu).2.1.counter i).counterValue) =
      (List.range (batchLength m)).flatMap fun i => eventLines i (m + i)
        (pairReading P (readHw P func (batchEntered P x.cfg m x.pmu)) (2 * i)) := by
    apply List.flatMap_congr
    intro i hi
    obtain ⟨index, value⟩ := values i (List.mem_range.mp hi)
    rw [index, value]
  refine ⟨⟨(batchReadout P func x.cfg m x.pmu).2.1,
    (pmuPrintCounters (batchReadout P func x.cfg m x.pmu).2.1
      (batchReadout P func x.cfg m x.pmu).2.2).2,
    x.invoked ++ [batchEntered P x.cfg m x.pmu]⟩, ?_, rfl, ?_, ?_⟩
  · unfold characterizeBatch
    rw [selectMapEvents_paired]
    exact (if_neg (not_not_intro ok)).trans (if_neg (not_not_intro status))
  · dsimp only
    rw [printed]
    exact inits
  · dsimp only
    rw [printed]
    dsimp only
    rw [console, lines]

theorem entryLines_old {invoked : List (Pmu H)} (y : Pmu H) {m : ℕ}
    (old : m < 4 * invoked.length) :
    entryLines P func (invoked ++ [y]) m = entryLines P func invoked m := by
  unfold entryLines
  rw [List.getElem?_append_left (by omega)]

theorem entryLines_new (invoked : List (Pmu H)) (y : Pmu H) {i : ℕ} (hi : i < 4) :
    entryLines P func (invoked ++ [y]) (4 * invoked.length + i) =
      eventLines i (4 * invoked.length + i) (pairReading P (readHw P func y) (2 * i)) := by
  have call : (4 * invoked.length + i) / 4 = invoked.length := by omega
  have slot : (4 * invoked.length + i) % 4 = i := by omega
  unfold entryLines
  rw [call, slot, List.getElem?_concat_length, pairReading_eq]
  rfl

theorem entryLines_batch {invoked : List (Pmu H)} (y : Pmu H) {m : ℕ}
    (calls : m = 4 * invoked.length) (more : m < 70) :
    (List.range (min (m + 4) 70)).flatMap (entryLines P func (invoked ++ [y])) =
      (List.range m).flatMap (entryLines P func invoked) ++
        (List.range (batchLength m)).flatMap fun i =>
          eventLines i (m + i) (pairReading P (readHw P func y) (2 * i)) := by
  have split : min (m + 4) 70 = m + batchLength m := by
    unfold batchLength
    omega
  have before : (List.range m).flatMap (entryLines P func (invoked ++ [y])) =
      (List.range m).flatMap (entryLines P func invoked) := by
    apply List.flatMap_congr
    intro e he
    have inside := List.mem_range.mp he
    exact entryLines_old y (by omega)
  rw [split, List.range_add, List.flatMap_append, before, List.flatMap_map]
  congr 1
  apply List.flatMap_congr
  intro i hi
  have inside : i < 4 := (List.mem_range.mp hi).trans_le (batchLength_le m)
  rw [calls, entryLines_new invoked y inside]

/-- The loop is about to start the batch from the entry `m` on: the entries before `m` have been
measured and printed. -/
structure Progress (P : Platform H) (evtyper : H → ℕ → Word) (func : H → H) (s : Pmu H) (m : ℕ)
    (x : Characterization H) : Prop where
  calls : m = 4 * x.invoked.length
  bound : m ≤ 72
  console : x.pmu.console =
    s.console ++ (List.range (min m 70)).flatMap (entryLines P func x.invoked)
  inits : ∃ made : List InitRecord, x.pmu.inits = made ++ s.inits ∧
    made.length = x.invoked.length ∧ ∀ q ∈ made, q.status = statusSuccess
  programmed : ∀ k y, x.invoked[k]? = some y →
    PairsProgrammed evtyper (batchLength (4 * k)) (batchId (4 * k)) y.hw

theorem progress_start (cfg : PmuConfig) (s : Pmu H) :
    Progress P evtyper func s 0 ⟨cfg, s, []⟩ where
  calls := rfl
  bound := Nat.zero_le _
  console := by simp
  inits := ⟨[], rfl, rfl, by simp⟩
  programmed := by simp

theorem Progress.batch (laws : Programs P evtyper) {s : Pmu H} {m : ℕ} {x : Characterization H}
    (progress : Progress P evtyper func s m x) (more : m < 70)
    (ok : (pmuInit P (batchOf x.cfg m) x.pmu).1 = statusSuccess) :
    (characterizeBatch P func m x).1 = true ∧
      Progress P evtyper func s (m + 4) (characterizeBatch P func m x).2 := by
  obtain ⟨r, eq, invoked, inits, console⟩ := characterizeBatch_ok func ok
  have calls := progress.calls
  rw [eq]
  refine ⟨rfl, ?_, ?_, ?_, ?_, ?_⟩
  · rw [invoked, List.length_append, List.length_singleton]
    omega
  · omega
  · rw [console, progress.console, invoked, entryLines_batch _ calls more,
      Nat.min_eq_left (by omega), List.append_assoc]
  · obtain ⟨made, history, length, good⟩ := progress.inits
    have newest := pmuInit_history P (batchOf x.cfg m) x.pmu
    rw [history] at newest
    refine ⟨_ :: made, inits.trans newest, ?_, ?_⟩
    · rw [invoked, List.length_append, List.length_singleton, List.length_cons, length]
    · intro q member
      rcases List.mem_cons.mp member with rfl | old
      · exact ok
      · exact good q old
  · intro k y entered
    rw [invoked] at entered
    by_cases old : k < x.invoked.length
    · rw [List.getElem?_append_left old] at entered
      exact progress.programmed k y entered
    · obtain ⟨inside, here⟩ := List.getElem?_eq_some_iff.mp entered
      rw [List.length_append, List.length_singleton] at inside
      obtain rfl : k = x.invoked.length := by omega
      rw [List.getElem_concat_length rfl] at here
      rw [← here, ← calls]
      exact laws.pairs_of_init (batchOf_slots x.cfg m) (batchLength_le m) ok

/-- The loop ends after the last entry, or at the first batch that cannot be programmed. -/
theorem characterizeFrom_outcome (laws : Programs P evtyper) {s : Pmu H} {m : ℕ}
    {x : Characterization H} (progress : Progress P evtyper func s m x) :
    Progress P evtyper func s 72 (characterizeFrom P func m x) ∨
      ∃ n y, n < 70 ∧ Progress P evtyper func s n y ∧
        (pmuInit P (batchOf y.cfg n) y.pmu).1 ≠ statusSuccess ∧
        characterizeFrom P func m x =
          ⟨(pmuInit P (batchOf y.cfg n) y.pmu).2.1, batchEntered P y.cfg n y.pmu, y.invoked⟩ := by
  fun_induction characterizeFrom P func m x with
  | case1 m x more r goes ih =>
    by_cases ok : (pmuInit P (batchOf x.cfg m) x.pmu).1 = statusSuccess
    · exact ih (progress.batch laws more ok).2
    · have stop := characterizeBatch_failed func ok
      dsimp only [r] at goes
      rw [stop] at goes
      cases goes
  | case2 m x more r stops =>
    by_cases ok : (pmuInit P (batchOf x.cfg m) x.pmu).1 = statusSuccess
    · exact absurd (progress.batch laws more ok).1 stops
    · have stop := characterizeBatch_failed func ok
      exact .inr ⟨m, x, more, progress, ok, congrArg Prod.snd stop⟩
  | case3 m x last =>
    have calls := progress.calls
    have bound := progress.bound
    dsimp only [pmuMapSize] at last
    obtain rfl : m = 72 := by omega
    exact .inl progress

theorem Progress.labelled (laws : Programs P evtyper) {s : Pmu H} {n m : ℕ}
    {x : Characterization H} (progress : Progress P evtyper func s n x) (hm : m < min n 70) :
    ∃ y, x.invoked[m / 4]? = some y ∧
      evtyper y.hw (2 * (m % 4)) = mapEventId m ∧
      evtyper y.hw (2 * (m % 4) + 1) = armPmuChain ∧
      ((∀ hw, ∀ k < maxCounters, evtyper (func hw) k = evtyper hw k) →
        evtyper (readHw P func y) (2 * (m % 4)) = mapEventId m ∧
        evtyper (readHw P func y) (2 * (m % 4) + 1) = armPmuChain) := by
  have calls := progress.calls
  have call : m / 4 < x.invoked.length := by omega
  have few := batchLength_le (4 * (m / 4))
  have slot : m % 4 < batchLength (4 * (m / 4)) := by
    unfold batchLength
    omega
  have entry : batchId (4 * (m / 4)) (m % 4) = mapEventId m := by
    unfold batchId
    rw [Nat.div_add_mod]
  have pairs := progress.programmed (m / 4) _ (List.getElem?_eq_getElem call)
  have here := pairs _ slot
  rw [entry] at here
  refine ⟨_, List.getElem?_eq_getElem call, here.1, here.2, fun leaves => ?_⟩
  have later : PairsProgrammed evtyper _ _ (readHw P func x.invoked[m / 4]) :=
    pairs.of_evtyper few fun k hk => (laws.pausedHw _ hk).trans (leaves _ k hk)
  have there := later _ slot
  rwa [entry] at there

/-- The function is called once for each batch that is programmed, and every entry of the table
up to there is printed once, in order, under its own name and with the values of the pair of
counters that was programmed for it when the function was called. The loop covers the whole table
unless a call of the platform fails, which ends it there. -/
theorem characterize_function_measures (laws : Programs P evtyper) (func : H → H)
    (cfg : PmuConfig) (s : Pmu H) :
    let r := characterizeFunction P func cfg s
    let b := r.invoked.length
    let printed := (List.range (min (4 * b) 70)).flatMap (entryLines P func r.invoked)
    (∀ m < min (4 * b) 70, ∃ x, r.invoked[m / 4]? = some x ∧
      evtyper x.hw (2 * (m % 4)) = mapEventId m ∧
      evtyper x.hw (2 * (m % 4) + 1) = armPmuChain ∧
      ((∀ hw, ∀ k < maxCounters, evtyper (func hw) k = evtyper hw k) →
        evtyper (readHw P func x) (2 * (m % 4)) = mapEventId m ∧
        evtyper (readHw P func x) (2 * (m % 4) + 1) = armPmuChain)) ∧
    ∃ made : List InitRecord, made.length = b ∧ (∀ q ∈ made, q.status = statusSuccess) ∧
      (b = 18 ∧ r.pmu.console = s.console ++ printed ∧ r.pmu.inits = made ++ s.inits ∨
        b < 18 ∧ ∃ y : Characterization H, y.invoked = r.invoked ∧
          y.pmu.console = s.console ++ printed ∧ y.pmu.inits = made ++ s.inits ∧
          let stopped := pmuInit P (batchOf y.cfg (4 * b)) y.pmu
          stopped.1 ≠ statusSuccess ∧ r.cfg = stopped.2.1 ∧ r.pmu = stopped.2.2 ∧
          PlatformFails P pmuV1_0_0 r.pmu.driver.ambiqPmuConfig y.pmu.hw) := by
  intro r b printed
  have start : Progress P evtyper func s 0 ⟨cfg, s, []⟩ := progress_start cfg s
  rcases characterizeFrom_outcome laws start with
    whole | ⟨n, y, more, progress, failed, eq⟩
  · have calls : 72 = 4 * b := whole.calls
    have table : min (4 * b) 70 = min 72 70 := by omega
    obtain ⟨made, inits, length, good⟩ := whole.inits
    dsimp only [printed]
    rw [table]
    refine ⟨fun m hm => whole.labelled laws hm, made, length, good, .inl ⟨by omega, ?_, inits⟩⟩
    exact whole.console
  · have stopped : r = ⟨(pmuInit P (batchOf y.cfg n) y.pmu).2.1, batchEntered P y.cfg n y.pmu,
        y.invoked⟩ := eq
    have same : r.invoked = y.invoked := by rw [stopped]
    have calls : n = 4 * b := by
      dsimp only [b]
      rw [progress.calls, same]
    obtain ⟨made, inits, length, good⟩ := progress.inits
    have fails := (batchOf_slots y.cfg n).refused (P := P) (s := y.pmu) rfl (batchLength_le n)
      (fun i hi => by simp [batchId_known hi]) failed
    dsimp only [printed]
    rw [← calls, same]
    refine ⟨fun m hm => progress.labelled laws hm, made, ?_, good, .inr ⟨by omega, y, rfl,
      progress.console, inits, failed, ?_, ?_, ?_⟩⟩
    · dsimp only [b]
      rw [length, same]
    all_goals rw [stopped]
    · rfl
    · exact fails

theorem characterize_function_measures_ref :
    let r := characterizeFunction steadyPlatform (RefPmu.occur (mapEventId 6)) .zero
      ⟨.start, .start, [], []⟩
    r.invoked.length = 18 := by
  obtain ⟨-, made, -, -, ⟨all, -⟩ | ⟨-, y, -, -, -, -, -, -, fails⟩⟩ :=
    characterize_function_measures steadyPlatform_programs (RefPmu.occur (mapEventId 6)) .zero
      ⟨.start, .start, [], []⟩
  · exact all
  · rcases fails with checked | on | programmed
    · exact absurd rfl checked
    · exact absurd rfl on
    · exact absurd rfl programmed

end NsxPmu
