import NsxPmu.AccumulatorAccounting

set_option autoImplicit false

/-!
# The table of accumulators

Every call of the interface, in any order and through any handle: which entries and
which words it may touch, and which handles are out.
-/
namespace NsxPmu
open Function (update)
open WordMemory LabelledRuns SlotTable

variable {H : Type} {P : Platform H} {B : AccBuild}

inductive TableCall (H : Type) where
  | create (ops events : BitVec 16) (backingBuf : ℕ)
  | destroy (h : BitVec 8)
  | accm (h : BitVec 8) (call : AccCall H)
  | getLayer (h : BitVec 8) (layer : BitVec 16) (out : ℕ) (callerCapacity : BitVec 16)

def tableStep (B : AccBuild) (P : Platform H) (x : AccStore H) : TableCall H → AccStore H
  | .create ops events backingBuf =>
    ⟨(accmCreate B P x.accs ops events backingBuf x.world).2.1,
      (accmCreate B P x.accs ops events backingBuf x.world).2.2⟩
  | .destroy h => ⟨(accmDestroy B x.accs h x.world).1, (accmDestroy B x.accs h x.world).2⟩
  | .accm h call => accmStep B P h x call
  | .getLayer h layer out callerCapacity =>
    ⟨x.accs, accmGetLayer B x.accs h layer.toNat out callerCapacity.toNat x.world⟩

def TableCall.handle? : TableCall H → Option (BitVec 8)
  | .create _ _ _ => none
  | .destroy h => some h
  | .accm h _ => some h
  | .getLayer h _ _ _ => some h

/-- The words a call was told to copy a row to. -/
def TableCall.CopiesTo (x : AccStore H) (m : ℕ) : TableCall H → Prop
  | .getLayer h _ out callerCapacity =>
    out ≤ m ∧ m < out + min callerCapacity.toNat (x.accs h.toNat).events
  | _ => False

def Acc.InBuffer (a : Acc) (m : ℕ) : Prop := a.sum ≤ m ∧ m < a.sum + a.ops * a.events

theorem SameMatrix.inBuffer {a a' : Acc} (same : SameMatrix a a') (m : ℕ) :
    a'.InBuffer m ↔ a.InBuffer m := by
  unfold Acc.InBuffer
  rw [same.sum, same.ops, same.events]

section Frame
variable {x : AccStore H} {call : TableCall H} {h : BitVec 8}

theorem tableStep_dead (through : call.handle? = some h) (dead : handleToAcc B x.accs h = none) :
    (tableStep B P x call).accs = x.accs ∧ (tableStep B P x call).world.mem = x.world.mem := by
  cases call with
  | create ops events backingBuf => cases through
  | destroy h' =>
    obtain rfl : h' = h := Option.some.inj through
    dsimp only [tableStep, accmDestroy, onHandle]
    rw [dead]
    exact ⟨rfl, rfl⟩
  | accm h' call =>
    obtain rfl : h' = h := Option.some.inj through
    dsimp only [tableStep]
    rcases accmStep_dead (P := P) dead call with eq | ⟨f, -, eq⟩
    · rw [eq]
      exact ⟨rfl, rfl⟩
    · rw [eq]
      exact ⟨rfl, rfl⟩
  | getLayer h' layer out callerCapacity =>
    obtain rfl : h' = h := Option.some.inj through
    dsimp only [tableStep, accmGetLayer]
    rw [dead]
    exact ⟨rfl, rfl⟩

/-- A call through a live handle changes the entry of the handle, and writes to its matrix and to
where it was told to copy a row. -/
theorem tableStep_live (through : call.handle? = some h) {i : ℕ}
    (live : handleToAcc B x.accs h = some i) :
    ∃ a, (tableStep B P x call).accs = update x.accs i a ∧
      (AccInvariant (x.accs i) → ∀ m, ¬ (x.accs i).InBuffer m → ¬ call.CopiesTo x m →
        (tableStep B P x call).world.mem m = x.world.mem m) := by
  cases call with
  | create ops events backingBuf => cases through
  | destroy h' =>
    obtain rfl : h' = h := Option.some.inj through
    refine ⟨.zero, ?_⟩
    dsimp only [tableStep, accmDestroy, onHandle]
    rw [live]
    exact ⟨rfl, fun _ _ _ _ => rfl⟩
  | accm h' call =>
    obtain rfl : h' = h := Option.some.inj through
    refine ⟨(accStep P (x.accs i) x.world call).1, ?_⟩
    dsimp only [tableStep]
    rw [accmStep_live P live]
    refine ⟨rfl, fun inv m outside _ => ?_⟩
    apply accStep_memory inv call
    unfold Acc.InBuffer at outside
    omega
  | getLayer h' layer out callerCapacity =>
    obtain rfl : h' = h := Option.some.inj through
    refine ⟨x.accs i, (Function.update_eq_self i x.accs).symm, fun _ m _ spared => ?_⟩
    have here := handleToAcc_some live
    dsimp only [tableStep, accmGetLayer]
    rw [live]
    dsimp only
    split
    · rfl
    · apply copyRange_outside
      dsimp only [TableCall.CopiesTo] at spared
      rw [here]
      split <;> omega

theorem tableStep_other (through : call.handle? = some h) {j : ℕ} (other : j ≠ h.toNat) :
    (tableStep B P x call).accs j = x.accs j := by
  cases live : handleToAcc B x.accs h with
  | none => rw [(tableStep_dead through live).1]
  | some i =>
    obtain rfl := handleToAcc_some live
    obtain ⟨a, accs, -⟩ := tableStep_live (P := P) through live
    rw [accs]
    exact Function.update_of_ne other ..

theorem tableStep_spares (used : (x.accs h.toNat).inUse = true) (other : call.handle? ≠ some h) :
    (tableStep B P x call).accs h.toNat = x.accs h.toNat := by
  cases through : call.handle? with
  | some h' =>
    apply tableStep_other through
    intro same
    rw [through, BitVec.eq_of_toNat_eq same] at other
    exact other rfl
  | none =>
    cases call with
    | create ops events backingBuf =>
      dsimp only [tableStep]
      by_cases failed : (accmCreate B P x.accs ops events backingBuf x.world).1 = 0xFF
      · rw [accmCreate_failed failed]
      · have free := accmCreate_free failed
        rw [(accmCreate_created failed).table]
        apply Function.update_of_ne
        intro same
        rw [← same, used] at free
        cases free
    | destroy h' => cases through
    | accm h' call => cases through
    | getLayer h' layer out callerCapacity => cases through

theorem tableStep_memory (through : call.handle? = some h)
    (inv : (x.accs h.toNat).inUse = true → AccInvariant (x.accs h.toNat)) {m : ℕ}
    (outside : ¬ (x.accs h.toNat).InBuffer m) (spared : ¬ call.CopiesTo x m) :
    (tableStep B P x call).world.mem m = x.world.mem m := by
  cases live : handleToAcc B x.accs h with
  | none => rw [(tableStep_dead through live).2]
  | some i =>
    obtain rfl := handleToAcc_some live
    obtain ⟨a, -, memory⟩ := tableStep_live (P := P) through live
    exact memory (inv (handleToAcc_live.mp live).2) m outside spared

end Frame

/-- The accumulators, and the handles that were created and have not been destroyed since. -/
structure AccHolders (H : Type) where
  store : AccStore H
  held : List (BitVec 8)

def holdersStep (B : AccBuild) (P : Platform H) (t : AccHolders H) (call : TableCall H) :
    AccHolders H :=
  ⟨tableStep B P t.store call, match call with
    | .create ops events backingBuf =>
      let h := (accmCreate B P t.store.accs ops events backingBuf t.store.world).1
      if h = 0xFF then t.held else h :: t.held
    | .destroy h => t.held.erase h
    | _ => t.held⟩

/-- A new matrix gets a buffer apart from the buffers of the live ones. -/
def SeparateBuffer (B : AccBuild) (P : Platform H) (x : AccStore H) : TableCall H → Prop
  | .create ops events backingBuf =>
    (accmCreate B P x.accs ops events backingBuf x.world).1 ≠ 0xFF →
      ∀ i, (x.accs i).inUse = true → ∀ m, (x.accs i).InBuffer m →
        ¬ (backingBuf ≤ m ∧ m < backingBuf + ops.toNat * events.toNat)
  | _ => True

structure TableInvariant (B : AccBuild) (accs : ℕ → Acc) (held : List (BitVec 8)) : Prop where
  entry : ∀ i, (accs i).inUse = true → AccInvariant (accs i)
  apart : ∀ i j, i ≠ j → (accs i).inUse = true → (accs j).inUse = true →
    ∀ m, (accs i).InBuffer m → ¬ (accs j).InBuffer m
  held : Lists (fun i => (accs i).inUse) B.maxActive (held.map BitVec.toNat)

section Invariant
variable {accs : ℕ → Acc} {held : List (BitVec 8)} {h : BitVec 8} {a : Acc}

theorem TableInvariant.mem_held (inv : TableInvariant B accs held) :
    h ∈ held ↔ handleToAcc B accs h = some h.toNat := by
  have listed : h ∈ held ↔ h.toNat ∈ held.map BitVec.toNat := by
    constructor
    · exact fun member => List.mem_map_of_mem member
    · intro member
      obtain ⟨h', member', same⟩ := List.mem_map.mp member
      rwa [← BitVec.eq_of_toNat_eq same]
  rw [listed, inv.held.mem, handleToAcc_live]

theorem inUse_update (accs : ℕ → Acc) (i : ℕ) (a : Acc) (j : ℕ) :
    (update accs i a j).inUse = update (fun k => (accs k).inUse) i a.inUse j :=
  Function.apply_update (fun _ => Acc.inUse) accs i a j

theorem TableInvariant.insert (inv : TableInvariant B accs held) (inside : h.toNat < B.maxActive)
    (free : (accs h.toNat).inUse = false) (used : a.inUse = true) (good : AccInvariant a)
    (separate : ∀ i, (accs i).inUse = true → ∀ m, (accs i).InBuffer m → ¬ a.InBuffer m) :
    TableInvariant B (update accs h.toNat a) (h :: held) := by
  refine ⟨?_, ?_, ?_⟩
  · exact (Function.forall_update_iff accs fun _ b => b.inUse = true → AccInvariant b).mpr
      ⟨fun _ => good, fun i _ => inv.entry i⟩
  · intro i j distinct usedI usedJ m inI inJ
    by_cases hereI : i = h.toNat
    · have hereJ : j ≠ h.toNat := by omega
      subst hereI
      rw [Function.update_self] at inI
      rw [Function.update_of_ne hereJ] at usedJ inJ
      exact separate j usedJ m inJ inI
    · rw [Function.update_of_ne hereI] at usedI inI
      by_cases hereJ : j = h.toNat
      · subst hereJ
        rw [Function.update_self] at inJ
        exact separate i usedI m inI inJ
      · rw [Function.update_of_ne hereJ] at usedJ inJ
        exact inv.apart i j distinct usedI usedJ m inI inJ
  · refine (inv.held.take inside free).congr fun i => ?_
    rw [inUse_update, used]

theorem TableInvariant.remove (inv : TableInvariant B accs held) :
    TableInvariant B (update accs h.toNat .zero) (held.erase h) := by
  have other : ∀ i, (update accs h.toNat Acc.zero i).inUse = true →
      update accs h.toNat Acc.zero i = accs i := by
    intro i used
    by_cases here : i = h.toNat
    · subst here
      rw [Function.update_self] at used
      cases used
    · exact Function.update_of_ne here ..
  refine ⟨?_, ?_, ?_⟩
  · intro i used
    have kept := other i used
    rw [kept] at used ⊢
    exact inv.entry i used
  · intro i j distinct usedI usedJ
    have keptI := other i usedI
    have keptJ := other j usedJ
    rw [keptI] at usedI ⊢
    rw [keptJ] at usedJ ⊢
    exact inv.apart i j distinct usedI usedJ
  · have injective : Function.Injective (BitVec.toNat : BitVec 8 → ℕ) :=
      fun _ _ same => BitVec.eq_of_toNat_eq same
    rw [List.map_erase injective]
    refine (inv.held.release h.toNat).congr fun i => ?_
    rw [inUse_update]
    rfl

theorem TableInvariant.replace (inv : TableInvariant B accs held) (good : AccInvariant a)
    (same : SameMatrix (accs h.toNat) a) : TableInvariant B (update accs h.toNat a) held := by
  have matrix : ∀ i, SameMatrix (accs i) (update accs h.toNat a i) :=
    (Function.forall_update_iff accs fun i b => SameMatrix (accs i) b).mpr
      ⟨same, fun i _ => .refl (accs i)⟩
  refine ⟨?_, ?_, inv.held.congr fun i => (matrix i).inUse⟩
  · exact (Function.forall_update_iff accs fun _ b => b.inUse = true → AccInvariant b).mpr
      ⟨fun _ => good, fun i _ => inv.entry i⟩
  · intro i j distinct usedI usedJ m inI
    rw [(matrix i).inUse] at usedI
    rw [(matrix j).inUse] at usedJ
    rw [(matrix i).inBuffer] at inI
    rw [(matrix j).inBuffer]
    exact inv.apart i j distinct usedI usedJ m inI

end Invariant

theorem tableInvariant_start : TableInvariant B (fun _ => .zero) [] := by
  refine ⟨?_, ?_, lists_empty fun _ => rfl⟩
  · intro i used
    cases used
  · intro i j _ used
    cases used

theorem TableInvariant.step {t : AccHolders H} (inv : TableInvariant B t.store.accs t.held)
    {call : TableCall H} (separate : SeparateBuffer B P t.store call) :
    TableInvariant B (holdersStep B P t call).store.accs (holdersStep B P t call).held := by
  obtain ⟨⟨accs, w⟩, held⟩ := t
  cases call with
  | create ops events backingBuf =>
    dsimp only [holdersStep, tableStep, SeparateBuffer] at inv separate ⊢
    by_cases failed : (accmCreate B P accs ops events backingBuf w).1 = 0xFF
    · rw [if_pos failed, accmCreate_failed failed]
      exact inv
    · have free := accmCreate_free failed
      have new := accmCreate_created failed
      have good := new.invariant
      have matrix := new.matrix
      rw [new.entry] at good matrix
      rw [if_neg failed, new.table]
      apply inv.insert new.index free rfl good
      intro i used m inI
      rw [matrix.inBuffer]
      exact separate failed i used m inI
  | destroy h =>
    have outside := inv.mem_held (h := h)
    dsimp only [holdersStep, tableStep, accmDestroy, onHandle] at inv outside ⊢
    cases live : handleToAcc B accs h with
    | none =>
      rw [live] at outside
      rw [List.erase_of_not_mem (by simp [outside])]
      exact inv
    | some i =>
      obtain rfl := handleToAcc_some live
      exact inv.remove
  | accm h call =>
    dsimp only [holdersStep, tableStep] at inv ⊢
    cases live : handleToAcc B accs h with
    | none =>
      have kept : (tableStep B P ⟨accs, w⟩ (.accm h call)).accs = accs :=
        (tableStep_dead rfl live).1
      dsimp only [tableStep] at kept
      rwa [kept]
    | some i =>
      obtain rfl := handleToAcc_some live
      have good := inv.entry h.toNat (handleToAcc_live.mp live).2
      obtain ⟨good', same⟩ := accStep_invariant (P := P) (w := w) good call
      rw [accmStep_live P (x := ⟨accs, w⟩) live]
      exact inv.replace good' same
  | getLayer h layer out callerCapacity => exact inv

theorem TableInvariant.keeps {t : AccHolders H} (inv : TableInvariant B t.store.accs t.held)
    {call : TableCall H} (separate : SeparateBuffer B P t.store call) {h : BitVec 8}
    (out : h ∈ t.held) (other : call.handle? ≠ some h) :
    (tableStep B P t.store call).accs h.toNat = t.store.accs h.toNat ∧
      ∀ m, (t.store.accs h.toNat).InBuffer m → ¬ call.CopiesTo t.store m →
        (tableStep B P t.store call).world.mem m = t.store.world.mem m := by
  have used := (handleToAcc_live.mp (inv.mem_held.mp out)).2
  refine ⟨tableStep_spares used other, fun m inside spared => ?_⟩
  cases through : call.handle? with
  | some h' =>
    have apart : h'.toNat ≠ h.toNat := by
      intro same
      rw [through, BitVec.eq_of_toNat_eq same] at other
      exact other rfl
    cases used' : (t.store.accs h'.toNat).inUse with
    | true =>
      have outside := inv.apart h.toNat h'.toNat (Ne.symm apart) used used' m inside
      exact tableStep_memory through (inv.entry h'.toNat) outside spared
    | false =>
      have dead : handleToAcc B t.store.accs h' = none := by
        unfold handleToAcc
        rw [used']
        simp
      rw [(tableStep_dead through dead).2]
  | none =>
    cases call with
    | create ops events backingBuf =>
      dsimp only [tableStep, SeparateBuffer] at separate ⊢
      by_cases failed : (accmCreate B P t.store.accs ops events backingBuf t.store.world).1 = 0xFF
      · rw [accmCreate_failed failed]
      · rw [(accmCreate_created failed).world]
        have outside := separate failed h.toNat used m inside
        exact zeroRange_outside _ (by omega)
    | destroy h' => cases through
    | accm h' call => cases through
    | getLayer h' layer out callerCapacity => cases through

def accmHoldersStart (w : World H) : AccHolders H := ⟨⟨fun _ => .zero, w⟩, []⟩

theorem tableInvariant_run (w : World H) (calls : List (TableCall H))
    (separate : AllSteps (holdersStep B P) (fun t call => SeparateBuffer B P t.store call)
      (accmHoldersStart w) calls) :
    TableInvariant B (run (holdersStep B P) (accmHoldersStart w) calls).store.accs
      (run (holdersStep B P) (accmHoldersStart w) calls).held := by
  have kept : ∀ (t : AccHolders H) call, TableInvariant B t.store.accs t.held →
      SeparateBuffer B P t.store call →
      TableInvariant B (holdersStep B P t call).store.accs (holdersStep B P t call).held :=
    fun _ _ inv separate => inv.step separate
  exact run_invariant (I := fun t => TableInvariant B t.store.accs t.held) kept
    tableInvariant_start separate

/-- Calls in any order, with any arguments and handles, where a new matrix gets a buffer apart
from the live ones. The handles that are out are the live ones, each with an entry of its own.
A new one is returned exactly when the arguments are valid and there is room, and otherwise
nothing changes. No call changes the entry of a handle it does not go through, nor any word of
that matrix but those it was told to copy a row to. -/
theorem accumulator_isolation (w : World H) (calls : List (TableCall H))
    (separate : AllSteps (holdersStep B P) (fun t call => SeparateBuffer B P t.store call)
      (accmHoldersStart w) calls) :
    let t := run (holdersStep B P) (accmHoldersStart w) calls
    let x := t.store
    (t.held.Nodup ∧ (∀ h, h ∈ t.held ↔ ∃ i, handleToAcc B x.accs h = some i) ∧
      ∀ h h' i, handleToAcc B x.accs h = some i → handleToAcc B x.accs h' = some i → h = h') ∧
    (∀ ops events backingBuf,
      let r := accmCreate B P x.accs ops events backingBuf x.world
      (r.1.toNat < B.maxActive ↔
        ValidMatrix B ops events backingBuf ∧ t.held.length < B.maxActive) ∧
      (r.1.toNat < B.maxActive → r.1 ∉ t.held) ∧
      (¬ r.1.toNat < B.maxActive → r = (0xFF, x.accs, x.world))) ∧
    (∀ call h, h ∈ t.held → call.handle? ≠ some h → SeparateBuffer B P x call →
      (tableStep B P x call).accs h.toNat = x.accs h.toNat ∧
      ∀ m, (x.accs h.toNat).InBuffer m → ¬ call.CopiesTo x m →
        (tableStep B P x call).world.mem m = x.world.mem m) ∧
    ∀ call h, h ∉ t.held → call.handle? = some h →
      (tableStep B P x call).accs = x.accs ∧ (tableStep B P x call).world.mem = x.world.mem := by
  have inv := tableInvariant_run w calls separate
  intro t x
  have live : ∀ h, h ∈ t.held ↔ ∃ i, handleToAcc B x.accs h = some i := by
    intro h
    rw [inv.mem_held]
    constructor
    · exact fun live => ⟨_, live⟩
    · rintro ⟨i, live⟩
      obtain rfl := handleToAcc_some live
      exact live
  refine ⟨⟨inv.held.nodup.of_map _, live, ?_⟩, ?_, ?_, ?_⟩
  · intro h h' i first second
    have same := (handleToAcc_some first).symm.trans (handleToAcc_some second)
    exact BitVec.eq_of_toNat_eq same
  · intro ops events backingBuf r
    have room := inv.held.room_iff
    rw [List.length_map] at room
    refine ⟨?_, fun inside => ?_, fun outside => ?_⟩
    · rw [accmCreate_index_iff, accmCreate_succeeds_iff, room]
    · have free := accmCreate_free (accmCreate_index_iff.mp inside)
      rw [inv.mem_held, handleToAcc_live]
      rintro ⟨-, used⟩
      exact absurd (free.symm.trans used) (by simp)
    · have failed : r.1 = 0xFF := by
        by_contra created
        exact outside (accmCreate_index_iff.mpr created)
      have kept := accmCreate_failed failed
      exact Prod.ext failed kept
  · intro call h out other separate
    exact inv.keeps separate out other
  · intro call h out through
    have dead : handleToAcc B x.accs h = none := by
      cases found : handleToAcc B x.accs h with
      | none => rfl
      | some i => exact absurd ((live h).mpr ⟨i, found⟩) out
    exact tableStep_dead through dead

def twoMatrices : AccBuild := { AccBuild.default with maxActive := 2, maxActive_le := by decide }

def twoMatricesCalls : List (TableCall RefPmu) :=
  [.create 1 1 4096, .create 1 1 8192, .accm 0 (.elapse (RefPmu.occur (mapEventId 0))),
    .accm 0 (.opEnd 0)]

theorem twoMatricesCalls_separate :
    AllSteps (holdersStep twoMatrices refPlatform)
      (fun t call => SeparateBuffer twoMatrices refPlatform t.store call)
      (accmHoldersStart RefPmu.start.world) twoMatricesCalls := by
  refine ⟨?_, ?_, trivial, trivial, trivial⟩
  · intro _ i used
    cases used
  · intro _ i used m inside
    have created : (accmCreate twoMatrices refPlatform (fun _ => .zero) 1 1 4096
        RefPmu.start.world).1 ≠ 0xFF := by decide
    have new := accmCreate_created created
    dsimp only [holdersStep, tableStep, accmHoldersStart] at used inside
    rw [new.table] at used inside
    by_cases here : i = (accmCreate twoMatrices refPlatform (fun _ => .zero) 1 1 4096
        RefPmu.start.world).1.toNat
    · rw [here, Function.update_self] at inside
      obtain ⟨lo, hi⟩ := inside
      dsimp only [Acc.fresh] at lo hi
      change m < 4096 + 1 * 1 at hi
      omega
    · rw [Function.update_of_ne here] at used
      cases used

theorem accumulator_isolation_ref :
    let t := run (holdersStep twoMatrices refPlatform) (accmHoldersStart RefPmu.start.world)
      twoMatricesCalls
    (tableStep twoMatrices refPlatform t.store (.accm 1 (.opEnd 0))).world.mem 4096 = 1 :=
  ((((accumulator_isolation (B := twoMatrices) (P := refPlatform) RefPmu.start.world twoMatricesCalls
    twoMatricesCalls_separate).2.2.1 (.accm 1 (.opEnd 0)) 0 (by decide +kernel) (by decide)
      trivial).2 4096 ⟨by decide +kernel, by decide +kernel⟩ id).trans (by decide +kernel))

/-- `nsx_pmu_accm_get_layer` writes wherever it is told to: here the row of the first matrix
ends up in the second one. -/
theorem get_layer_into_other_matrix :
    AllSteps (holdersStep twoMatrices refPlatform)
      (fun t call => SeparateBuffer twoMatrices refPlatform t.store call)
      (accmHoldersStart RefPmu.start.world) twoMatricesCalls ∧
    let t := run (holdersStep twoMatrices refPlatform) (accmHoldersStart RefPmu.start.world)
      twoMatricesCalls
    let call : TableCall RefPmu := .getLayer 0 0 8192 1
    t.held = [1, 0] ∧ call.handle? = some 0 ∧ (t.store.accs 1).InBuffer 8192 ∧
    t.store.world.mem 8192 = 0 ∧
    (tableStep twoMatrices refPlatform t.store call).world.mem 8192 = 1 := by
  refine ⟨twoMatricesCalls_separate, ?_, rfl, ⟨?_, ?_⟩, ?_⟩
  all_goals decide +kernel

def Issues (B : AccBuild) (P : Platform H) (h : BitVec 8) (x : AccStore H) : TableCall H → Prop
  | .create ops events backingBuf =>
    (accmCreate B P x.accs ops events backingBuf x.world).1 = h ∧ h ≠ 0xFF
  | _ => False

/-- No call through the handle has an effect, and the queries answer that there is nothing. -/
structure DeadHandle (B : AccBuild) (P : Platform H) (h : BitVec 8) (x : AccStore H) : Prop where
  destroy : accmDestroy B x.accs h x.world = (x.accs, x.world)
  inferenceBegin : accmInferenceBegin x.accs h = x.accs
  inferenceEnd : accmInferenceEnd B P x.accs h x.world = (x.accs, x.world)
  opBegin : ∀ op, accmOpBegin B P x.accs h op x.world = (x.accs, x.world)
  opEnd : ∀ op, accmOpEnd B P x.accs h op x.world = (x.accs, x.world)
  resolveTag : ∀ text tag, accmResolveTag B text x.accs h tag = (65535, x.accs)
  findTag : ∀ text tag, accmFindTag B text x.accs h tag = (65535, x.accs)
  complete : accmComplete B x.accs h = false
  getLayer : ∀ layer out capacity, accmGetLayer B x.accs h layer out capacity x.world = x.world

theorem deadHandle_of_none {x : AccStore H} {h : BitVec 8}
    (dead : handleToAcc B x.accs h = none) : DeadHandle B P h x := by
  have still : ∀ f, onHandle B x.accs h f x.world = (x.accs, x.world) := by
    intro f
    unfold onHandle
    rw [dead]
  have untagged : ∀ create text tag, accmTag create B text x.accs h tag = (65535, x.accs) := by
    intro create text tag
    unfold accmTag
    rw [dead]
  refine ⟨still _, rfl, still _, fun op => still _, fun op => still _, untagged true,
    untagged false, ?_, fun layer out capacity => ?_⟩
  · unfold accmComplete
    rw [dead]
  · unfold accmGetLayer
    rw [dead]

theorem handleToAcc_none {accs : ℕ → Acc} {h : BitVec 8} :
    handleToAcc B accs h = none ↔ (h.toNat < B.maxActive → (accs h.toNat).inUse = false) := by
  unfold handleToAcc
  split <;> simp_all

theorem destroy_dead (x : AccStore H) (h : BitVec 8) :
    handleToAcc B (tableStep B P x (.destroy h)).accs h = none := by
  dsimp only [tableStep, accmDestroy, onHandle]
  cases live : handleToAcc B x.accs h with
  | none => exact live
  | some i =>
    obtain rfl := handleToAcc_some live
    rw [handleToAcc_none]
    intro _
    dsimp only
    rw [Function.update_self]
    rfl

theorem tableStep_stays_dead {x : AccStore H} {call : TableCall H} {h : BitVec 8}
    (dead : handleToAcc B x.accs h = none) (unused : ¬ Issues B P h x call) :
    handleToAcc B (tableStep B P x call).accs h = none := by
  have kept : (tableStep B P x call).accs h.toNat = x.accs h.toNat →
      handleToAcc B (tableStep B P x call).accs h = none := by
    intro same
    rw [handleToAcc_none] at dead ⊢
    rwa [same]
  cases through : call.handle? with
  | some h' =>
    by_cases same : h' = h
    · subst same
      rw [(tableStep_dead through dead).1]
      exact dead
    · apply kept
      exact tableStep_other through fun eq => same (BitVec.eq_of_toNat_eq eq.symm)
  | none =>
    cases call with
    | create ops events backingBuf =>
      apply kept
      dsimp only [tableStep, Issues] at unused ⊢
      by_cases failed : (accmCreate B P x.accs ops events backingBuf x.world).1 = 0xFF
      · rw [accmCreate_failed failed]
      · rw [(accmCreate_created failed).table]
        apply Function.update_of_ne
        intro same
        have eq := BitVec.eq_of_toNat_eq same
        exact unused ⟨eq.symm, by rwa [eq]⟩
    | destroy h' => cases through
    | accm h' call => cases through
    | getLayer h' layer out callerCapacity => cases through

/-- A destroyed handle is dead in every continuation in which no matrix is created under the
same value; the creation of one makes the value denote that matrix. -/
theorem destroyed_handle_dead (x : AccStore H) (h : BitVec 8) (calls : List (TableCall H))
    (unused : AllSteps (tableStep B P) (fun x call => ¬ Issues B P h x call)
      (tableStep B P x (.destroy h)) calls) :
    let y := run (tableStep B P) (tableStep B P x (.destroy h)) calls
    DeadHandle B P h y ∧ ∀ call, Issues B P h y call →
      handleToAcc B (tableStep B P y call).accs h = some h.toNat := by
  intro y
  have kept : ∀ x call, handleToAcc B x.accs h = none → ¬ Issues B P h x call →
      handleToAcc B (tableStep B P x call).accs h = none :=
    fun _ _ dead unused => tableStep_stays_dead dead unused
  have dead : handleToAcc B y.accs h = none :=
    run_invariant (I := fun x : AccStore H => handleToAcc B x.accs h = none) kept
      (destroy_dead x h) unused
  refine ⟨deadHandle_of_none dead, ?_⟩
  intro call issues
  cases call with
  | create ops events backingBuf =>
    obtain ⟨same, valid⟩ := issues
    have live := (accmCreate_created (by rwa [same])).live
    rw [same] at live
    exact live
  | _ => cases issues

theorem destroyed_handle_dead_ref :
    let x := tableStep .default refPlatform ⟨fun _ => .zero, RefPmu.start.world⟩ (.create 1 5 4096)
    let y := run (tableStep .default refPlatform) (tableStep .default refPlatform x (.destroy 0))
      [.accm 0 .inferenceEnd, .create 0 5 8192]
    accmResolveTag .default (fun _ => []) y.accs 0 7 = (65535, y.accs) :=
  (destroyed_handle_dead (B := .default) (P := refPlatform)
    (tableStep .default refPlatform ⟨fun _ => .zero, RefPmu.start.world⟩ (.create 1 5 4096)) 0
    [.accm 0 .inferenceEnd, .create 0 5 8192]
    ⟨id, fun issues => absurd issues.1 (by decide), trivial⟩).1.resolveTag (fun _ => []) 7

/-- The next matrix after a destroyed one takes its slot and so its handle: calls through the
old value add to the new matrix, complete it, give it rows and destroy it. -/
theorem destroyed_handle_revives :
    let calls : List (TableCall RefPmu) := [.create 1 1 4096, .destroy 0, .create 1 1 8192,
      .accm 0 (.elapse (RefPmu.occur (mapEventId 0)))]
    let t := run (holdersStep .default refPlatform) (accmHoldersStart RefPmu.start.world) calls
    let x := t.store
    (accmCreate .default refPlatform (fun _ => .zero) 1 1 4096 RefPmu.start.world).1 = 0 ∧
    x.world.mem 8192 = 0 ∧
    (accmOpEnd .default refPlatform x.accs 0 0 x.world).2.mem 8192 = 1 ∧
    accmComplete .default (accmInferenceEnd .default refPlatform x.accs 0 x.world).1 0 = true ∧
    (accmResolveTag .default (fun _ => []) x.accs 0 7).1 = 0 ∧
    (x.accs 0).inUse = true ∧
    ((accmDestroy .default x.accs 0 x.world).1 0).inUse = false := by
  decide +kernel

end NsxPmu
