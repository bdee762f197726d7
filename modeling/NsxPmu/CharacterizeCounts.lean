import NsxPmu.SessionReport
import NsxPmu.PairedCounting

set_option autoImplicit false

/-!
# What a characterization counts

`nsx_pmu_characterize_function` against the occurrences of events in the calls of
the function.
-/
namespace NsxPmu
open Function (update)

variable {H : Type} {P : Platform H} {evtyper : H → ℕ → Word} {enabled : H → ℕ → Bool}
  {occur : Word → H → H}

/-- The hardware after the occurrences of a list, one after another. -/
def occurring (occur : Word → H → H) (events : List Word) (hw : H) : H :=
  events.foldl (fun hw event => occur event hw) hw

theorem PairsCount.occurring (laws : Counts P evtyper enabled occur) {n : ℕ} {id : ℕ → Word}
    {cfg : PmuConfig} {s : Pmu H} {since : Word → ℕ}
    (count : PairsCount P evtyper enabled n id cfg s since) (events : List Word) :
    PairsCount P evtyper enabled n id cfg { s with hw := occurring occur events s.hw }
      fun event => since event + events.count event := by
  induction events generalizing s since with
  | nil => exact count
  | cons event events ih =>
    have next := ih (count.occurs laws event)
    have counted : (fun other => update since event (since event + 1) other + events.count other) =
        fun other => since other + (event :: events).count other := by
      funext other
      by_cases here : other = event
      · subst here
        rw [Function.update_self, List.count_cons_self]
        omega
      · rw [Function.update_of_ne here, List.count_cons_of_ne (Ne.symm here)]
    rwa [counted] at next

/-- The function whose occurrences depend on the state in which it is called. -/
def working (occur : Word → H → H) (work : H → List Word) (hw : H) : H :=
  occurring occur (work hw) hw

/-- The lines of the table entry `m` with the occurrences in the call number `m / 4`. -/
def tallyLines (work : H → List Word) (invoked : List (Pmu H)) (m : ℕ) : List String :=
  (invoked[m / 4]?).elim [] fun y =>
    countLines (m % 4) m ((work y.hw).count (mapEventId m) % 2 ^ 32)

theorem range_batch {f g h : ℕ → List String} {m : ℕ} (more : m < 70) (old : ∀ e < m, f e = g e)
    (new : ∀ i < batchLength m, f (m + i) = h i) :
    (List.range (min (m + 4) 70)).flatMap f =
      (List.range m).flatMap g ++ (List.range (batchLength m)).flatMap h := by
  have split : min (m + 4) 70 = m + batchLength m := by
    unfold batchLength
    omega
  rw [split, List.range_add, List.flatMap_append, List.flatMap_map]
  congr 1
  · exact List.flatMap_congr fun e he => old e (List.mem_range.mp he)
  · exact List.flatMap_congr fun i hi => new i (List.mem_range.mp hi)

variable {work : H → List Word}

theorem tallyLines_old {invoked : List (Pmu H)} (y : Pmu H) {e : ℕ} (old : e < 4 * invoked.length) :
    tallyLines work (invoked ++ [y]) e = tallyLines work invoked e := by
  unfold tallyLines
  rw [List.getElem?_append_left (by omega)]

theorem tallyLines_new (invoked : List (Pmu H)) (y : Pmu H) {i : ℕ} (hi : i < 4) :
    tallyLines work (invoked ++ [y]) (4 * invoked.length + i) =
      countLines i (4 * invoked.length + i)
        ((work y.hw).count (mapEventId (4 * invoked.length + i)) % 2 ^ 32) := by
  have call : (4 * invoked.length + i) / 4 = invoked.length := by omega
  have slot : (4 * invoked.length + i) % 4 = i := by omega
  unfold tallyLines
  rw [call, slot, List.getElem?_concat_length]
  rfl

theorem batch_reads (laws : Counts P evtyper enabled occur) (work : H → List Word) {m : ℕ}
    {old : PmuConfig} {s : Pmu H} (ok : (pmuInit P (batchOf old m) s).1 = statusSuccess) {i : ℕ}
    (hi : i < batchLength m) :
    (pairReading P (readHw P (working occur work) (batchEntered P old m s)) (2 * i)).toNat =
      (work (batchEntered P old m s).hw).count (batchId m i) % 2 ^ 32 := by
  obtain ⟨-, -, values⟩ := batchReadout_ready (working occur work) ok
  have start := pairsCount_of_init laws (batchOf_slots old m) (batchLength_le m) ok
  have counted := ((start.occurring laws (work (batchEntered P old m s).hw)).getCounters laws).2.1 i hi
  rw [Nat.zero_add] at counted
  rw [← (values i hi).2]
  exact counted

/-- The loop is about to start the batch from the entry `m` on: what has been printed tells the
occurrences in the calls so far. -/
structure Tallied (work : H → List Word) (s : Pmu H) (m : ℕ) (x : Characterization H) : Prop where
  calls : m = 4 * x.invoked.length
  bound : m ≤ 72
  console : x.pmu.console =
    s.console ++ (List.range (min m 70)).flatMap (tallyLines work x.invoked)

section Answering
variable (answers : Answers P pmuV1_0_0) (laws : Counts P evtyper enabled occur) {s : Pmu H} {m : ℕ}
  {x : Characterization H}

include answers laws

theorem Tallied.batch (tallied : Tallied work s m x) (more : m < 70) :
    (characterizeBatch P (working occur work) m x).1 = true ∧
      Tallied work s (m + 4) (characterizeBatch P (working occur work) m x).2 := by
  have ok : (pmuInit P (batchOf x.cfg m) x.pmu).1 = statusSuccess :=
    answers.pairs rfl (batchOf_slots x.cfg m) (batchLength_le m)
      fun i hi => by rw [batchId_known hi]; rfl
  obtain ⟨r, eq, invoked, -, console⟩ := characterizeBatch_ok (working occur work) ok
  have calls := tallied.calls
  rw [eq]
  refine ⟨rfl, ?_, by omega, ?_⟩
  · rw [invoked, List.length_append, List.length_singleton]
    omega
  · dsimp only
    rw [console, tallied.console, invoked, Nat.min_eq_left (by omega), List.append_assoc]
    congr 1
    refine (range_batch more (fun e he => ?_) fun i hi => ?_).symm
    · exact tallyLines_old _ (by omega)
    · have inside := hi.trans_le (batchLength_le m)
      have read := batch_reads laws work ok hi
      rw [calls, tallyLines_new _ _ inside, ← calls]
      unfold batchId at read
      rw [← read]
      rfl

theorem Tallied.loop (tallied : Tallied work s m x) :
    Tallied work s 72 (characterizeFrom P (working occur work) m x) := by
  fun_induction characterizeFrom P (working occur work) m x with
  | case1 m x more r goes ih => exact ih (tallied.batch answers laws more).2
  | case2 m x more r stops => exact absurd (tallied.batch answers laws more).1 stops
  | case3 m x last =>
    have calls := tallied.calls
    have bound := tallied.bound
    dsimp only [pmuMapSize] at last
    obtain rfl : m = 72 := by omega
    exact tallied

end Answering

/-- On a platform that answers, a characterization calls the function once for every four entries of
the table, and prints every entry once, in order, with its name and the number of occurrences of its
event in the call of its batch, as a 32-bit word has it. -/
theorem characterize_counts (answers : Answers P pmuV1_0_0) (laws : Counts P evtyper enabled occur)
    (work : H → List Word) (cfg : PmuConfig) (s : Pmu H) :
    let r := characterizeFunction P (working occur work) cfg s
    r.invoked.length = 18 ∧
    r.pmu.console = s.console ++ (List.range pmuMapSize).flatMap (tallyLines work r.invoked) := by
  intro r
  have start : Tallied work s 0 ⟨cfg, s, []⟩ := ⟨rfl, Nat.zero_le _, (List.append_nil _).symm⟩
  have whole : Tallied work s 72 r := start.loop answers laws
  have calls := whole.calls
  exact ⟨by omega, whole.console⟩

/-- The entries 2 and 69 are in different batches. -/
theorem characterize_counts_ref :
    let r := characterizeFunction steadyPlatform
      (working RefPmu.occur fun _ => [mapEventId 2, mapEventId 69, mapEventId 2]) .zero
      ⟨.start, .start, [], []⟩
    r.invoked.length = 18 ∧ r.pmu.console = (List.range pmuMapSize).flatMap
      (tallyLines (fun _ => [mapEventId 2, mapEventId 69, mapEventId 2]) r.invoked) := by
  obtain ⟨calls, console⟩ := characterize_counts (steadyPlatform_answers _) steadyPlatform_counts
    (fun _ => [mapEventId 2, mapEventId 69, mapEventId 2]) .zero ⟨.start, .start, [], []⟩
  exact ⟨calls, console.trans (List.nil_append _)⟩

end NsxPmu
