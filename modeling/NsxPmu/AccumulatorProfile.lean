import NsxPmu.AccumulatorCollection
import NsxPmu.AccumulatorTags

set_option autoImplicit false

/-!
# Profiles by tag

A caller that knows its operators by name only resolves the tag of an operator to a
row and reports the operator under that row. Operators of one name share a row.
-/
namespace NsxPmu
open LabelledRuns WindowCounts BoundedLoops FirstAppearance

variable {H : Type}

/-- An operator with its tag, the occurrences in it, and those before it: until its tag is looked up
and from then on. -/
structure TaggedOp where
  tag : ℕ
  nonNull : tag ≠ 0
  idle : List Word
  looking : List Word
  work : List Word

structure TaggedInference where
  ops : List TaggedOp
  idle : List Word

def TaggedOp.inference (o : TaggedOp) : Inference := ⟨fun _ => o.work, fun _ => o.looking⟩

/-- The calls for an operator of which the tag resolves to a row. -/
def TaggedOp.calls (text : ℕ → List (BitVec 8)) (o : TaggedOp) (row : ℕ) : List AccLive :=
  o.idle.map .occur ++ .resolveTag text o.tag :: o.inference.accOperator row

section Calls
variable (B : AccBuild) (P : Platform H) (occur : Word → H → H) (h : BitVec 8)
  (text : ℕ → List (BitVec 8))

def profileOp (x : AccStore H) (o : TaggedOp) : AccStore H :=
  run (accLiveStep B P occur h) x (o.calls text (accmResolveTag B text x.accs h o.tag).1)

def profileOps (x : AccStore H) (ops : List TaggedOp) : AccStore H :=
  ops.foldl (profileOp B P occur h text) x

def profileInference (i : TaggedInference) (x : AccStore H) : AccStore H :=
  run (accLiveStep B P occur h)
    (profileOps B P occur h text (accLiveStep B P occur h x .inferenceBegin) i.ops)
    (i.idle.map .occur ++ [.inferenceEnd])

end Calls

def AccLive.untagged : AccLive → Bool
  | .resolveTag _ _ => false
  | .findTag _ _ => false
  | _ => true

theorem Inference.accOperator_untagged (i : Inference) (op : ℕ) :
    ∀ call ∈ i.accOperator op, call.untagged = true := by
  simp only [Inference.accOperator, List.mem_append, List.mem_cons, List.mem_map, List.not_mem_nil,
    or_false]
  rintro call (⟨event, -, rfl⟩ | rfl | ⟨event, -, rfl⟩ | rfl) <;> rfl

variable {P : Platform H} {evtyper : H → ℕ → Word} {enabled : H → ℕ → Bool} {occur : Word → H → H}
  {B : AccBuild} {h : BitVec 8} {a₀ : Acc} {text : ℕ → List (BitVec 8)}
  {seen : List (List (BitVec 8))} {x : AccStore H} {ends : ℕ} {m : Meter Word (ℕ × ℕ)}

theorem TagSession.live_untagged (P : Platform H) (occur : Word → H → H) {ops : ℕ}
    (session : TagSession B text h ops seen x.accs) {calls : List AccLive}
    (untagged : ∀ call ∈ calls, call.untagged = true) :
    TagSession B text h ops seen (LabelledRuns.run (accLiveStep B P occur h) x calls).accs := by
  refine run_invariant (I := fun x => TagSession B text h ops seen x.accs)
    (fun x call session plain => ?_) session
    (AllSteps_of_forall (fun call member _ => untagged call member) x)
  apply session.untagged
  intro text' tag
  cases call with
  | resolveTag text tag => cases plain
  | findTag text tag => cases plain
  | _ => exact ⟨nofun, nofun⟩

structure Profiled (B : AccBuild) (P : Platform H) (evtyper : H → ℕ → Word)
    (enabled : H → ℕ → Bool) (h : BitVec 8) (a₀ : Acc) (text : ℕ → List (BitVec 8))
    (seen : List (List (BitVec 8))) (x : AccStore H) (ends : ℕ) (m : Meter Word (ℕ × ℕ)) :
    Prop where
  store : StoreMetered B P evtyper enabled (fun _ => True) h a₀ x ends m
  tags : TagSession B text h a₀.ops seen x.accs

/-- What an operator is to add to a cell, given the contents in the order of their rows. -/
def TaggedOp.adds (text : ℕ → List (BitVec 8)) (order : List (List (BitVec 8))) (a₀ : Acc)
    (ends : ℕ) (cell : ℕ × ℕ) (o : TaggedOp) : ℕ :=
  if number order a₀.ops (text o.tag) = some cell.1 ∧ ends = cell.2 / 4 then
    o.work.count (mapEventId cell.2)
  else 0

theorem TaggedOp.calls_within (o : TaggedOp) (text : ℕ → List (BitVec 8)) (row : ℕ) :
    ∀ call ∈ o.calls text row, call ≠ .inferenceEnd := by
  simp only [TaggedOp.calls, Inference.accOperator, List.mem_append, List.mem_cons, List.mem_map,
    List.not_mem_nil, or_false]
  rintro call (⟨event, -, rfl⟩ | rfl | ⟨event, -, rfl⟩ | rfl | ⟨event, -, rfl⟩ | rfl) ⟨⟩

theorem occurs_batchTicks (ops events ends : ℕ) (l : List Word) :
    (l.map AccLive.occur).flatMap (batchTicks ops events ends) = l.map .occur := by
  rw [List.flatMap_map]
  exact List.map_eq_flatMap.symm

theorem TaggedOp.total (o : TaggedOp) (ops events ends : ℕ) (m : Meter Word (ℕ × ℕ)) {row : ℕ}
    (small : row < 65536) (cell : ℕ × ℕ) :
    (run meterStep m ((o.calls text row).flatMap (batchTicks ops events ends))).total cell =
      m.total cell + if cell.1 = row then
        (batchPlan ops events).adds mapEventId (batchPosition ends) o.inference cell else 0 := by
  have operator : (o.inference.accOperator row).flatMap (batchTicks ops events ends) =
      (o.inference.operator (X := Unit) row).flatMap
        ((batchPlan ops events).ticks mapEventId (batchPosition ends)) := by
    rw [← o.inference.accOperator_onCapture, List.flatMap_assoc]
    rfl
  have silent : batchTicks ops events ends (.resolveTag text o.tag) = [] := rfl
  rw [TaggedOp.calls, List.flatMap_append, List.flatMap_cons, occurs_batchTicks, silent,
    List.nil_append, operator, run_append, run_occurs, Inference.operator_total _ _ _ _ _ small]

theorem Profiled.op (laws : Counts P evtyper enabled occur)
    (profiled : Profiled B P evtyper enabled h a₀ text seen x ends m) (o : TaggedOp) :
    ∃ m', (∀ r < a₀.ops, ∀ e < a₀.events, m'.total (r, e) =
        m.total (r, e) + o.adds text (seen ++ [text o.tag]) a₀ ends (r, e)) ∧
      Profiled B P evtyper enabled h a₀ text (seen ++ [text o.tag])
        (profileOp B P occur h text x o) ends m' := by
  obtain ⟨row, -⟩ := profiled.tags.resolve o.nonNull
  have few : a₀.ops ≤ 65535 := by
    rw [← profiled.tags.ops]
    exact profiled.tags.numbers.ops_le
  have store := profiled.store.within laws
    (o.calls_within text (accmResolveTag B text x.accs h o.tag).1)
  have small : (accmResolveTag B text x.accs h o.tag).1 < 65536 := by
    rw [row]
    cases known : number (seen ++ [text o.tag]) a₀.ops (text o.tag) with
    | none => decide
    | some i =>
      have inside := (number_eq_some.mp known).1
      dsimp only [Option.getD_some]
      omega
  refine ⟨_, fun r hr e he => ?_, store, ?_⟩
  · have covers := (batchPlan_covers a₀.ops a₀.events ends r).mpr hr
    have measures := batchPlan_measures a₀.ops a₀.events ends e
    have here : r = (accmResolveTag B text x.accs h o.tag).1 ↔
        number (seen ++ [text o.tag]) a₀.ops (text o.tag) = some r := by
      rw [row]
      cases known : number (seen ++ [text o.tag]) a₀.ops (text o.tag) with
      | none =>
        simp only [Option.getD_none, reduceCtorEq, iff_false]
        omega
      | some i =>
        rw [Option.getD_some, Option.some.injEq]
        exact eq_comm
    rw [o.total a₀.ops a₀.events ends m small (r, e)]
    unfold TaggedOp.adds Plan.adds
    rw [← ite_and]
    refine congrArg (m.total (r, e) + ·) (if_congr ?_ rfl rfl)
    simp only [here, covers, measures, he, true_and, and_true]
  · have idle : ∀ call ∈ o.idle.map AccLive.occur, call.untagged = true := by
      intro call member
      obtain ⟨event, -, rfl⟩ := List.mem_map.mp member
      rfl
    have before := profiled.tags.live_untagged P occur idle
    have named := (before.resolve o.nonNull).2
    rw [profileOp, TaggedOp.calls, run_append, run_cons]
    exact TagSession.live_untagged P occur
      (x := accLiveStep B P occur h _ (.resolveTag text o.tag)) named
      (o.inference.accOperator_untagged _)

def contentsOf (text : ℕ → List (BitVec 8)) (ops : List TaggedOp) : List (List (BitVec 8)) :=
  ops.map (text ·.tag)

theorem Profiled.ops (laws : Counts P evtyper enabled occur) (ops : List TaggedOp)
    (profiled : Profiled B P evtyper enabled h a₀ text seen x ends m) :
    ∃ m', (∀ r < a₀.ops, ∀ e < a₀.events, m'.total (r, e) = m.total (r, e) +
        (ops.map (TaggedOp.adds text (seen ++ contentsOf text ops) a₀ ends (r, e))).sum) ∧
      Profiled B P evtyper enabled h a₀ text (seen ++ contentsOf text ops)
        (profileOps B P occur h text x ops) ends m' := by
  induction ops generalizing seen x m with
  | nil =>
    refine ⟨m, fun r hr e he => rfl, ?_⟩
    rw [contentsOf, List.map_nil, List.append_nil]
    exact profiled
  | cons o ops ih =>
    obtain ⟨m₁, first, named⟩ := profiled.op laws o
    obtain ⟨m₂, rest, done⟩ := ih named
    have order : seen ++ [text o.tag] ++ contentsOf text ops = seen ++ contentsOf text (o :: ops) :=
      List.append_assoc ..
    have settled : number (seen ++ [text o.tag] ++ contentsOf text ops) a₀.ops (text o.tag) =
        number (seen ++ [text o.tag]) a₀.ops (text o.tag) :=
      number_settled (by simp) _ _
    rw [order] at rest done settled
    refine ⟨m₂, fun r hr e he => ?_, done⟩
    have own : o.adds text (seen ++ contentsOf text (o :: ops)) a₀ ends (r, e) =
        o.adds text (seen ++ [text o.tag]) a₀ ends (r, e) := by
      unfold TaggedOp.adds
      rw [settled]
    rw [rest r hr e he, first r hr e he, List.map_cons, List.sum_cons, own, Nat.add_assoc]

theorem Profiled.inference (answers : Answers P pmuV1_0_0) (laws : Counts P evtyper enabled occur)
    (i : TaggedInference) (profiled : Profiled B P evtyper enabled h a₀ text seen x ends m) :
    ∃ m', (∀ r < a₀.ops, ∀ e < a₀.events, m'.total (r, e) = m.total (r, e) +
        (i.ops.map (TaggedOp.adds text (seen ++ contentsOf text i.ops) a₀ ends (r, e))).sum) ∧
      Profiled B P evtyper enabled h a₀ text (seen ++ contentsOf text i.ops)
        (profileInference B P occur h text i x) (ends + 1) m' := by
  have begun : Profiled B P evtyper enabled h a₀ text seen
      (accLiveStep B P occur h x .inferenceBegin) ends m :=
    ⟨profiled.store, profiled.tags⟩
  obtain ⟨m', totals, measured⟩ := begun.ops laws i.ops
  have idle : ∀ call ∈ i.idle.map AccLive.occur, call ≠ .inferenceEnd := by
    intro call member
    obtain ⟨event, -, rfl⟩ := List.mem_map.mp member
    rintro ⟨⟩
  have untagged : ∀ call ∈ i.idle.map AccLive.occur ++ [.inferenceEnd], call.untagged = true := by
    simp only [List.mem_append, List.mem_map, List.mem_singleton]
    rintro call (⟨event, -, rfl⟩ | rfl) <;> rfl
  have within := measured.store.within laws idle
  have store := within.step laws .inferenceEnd fun _ => within.succeeds answers
  have tags := measured.tags.live_untagged P occur untagged
  rw [profileInference]
  rw [run_append] at tags ⊢
  refine ⟨_, fun r hr e he => ?_, store, tags⟩
  rw [inferenceEnd_total, occurs_batchTicks, run_occurs]
  exact totals r hr e he

/-- The contents that have been resolved after some inferences. -/
def resolvedIn (text : ℕ → List (BitVec 8)) (inference : ℕ → TaggedInference) (n : ℕ) :
    List (List (BitVec 8)) :=
  (List.range n).flatMap fun k => contentsOf text (inference k).ops

variable {inference : ℕ → TaggedInference}

theorem resolvedIn_succ (n : ℕ) :
    resolvedIn text inference (n + 1) =
      resolvedIn text inference n ++ contentsOf text (inference n).ops := by
  rw [resolvedIn, List.range_succ, List.flatMap_append, List.flatMap_singleton]
  rfl

theorem resolvedIn_later (text : ℕ → List (BitVec 8)) (inference : ℕ → TaggedInference) {n k : ℕ}
    (le : n ≤ k) :
    ∃ later, resolvedIn text inference k = resolvedIn text inference n ++ later := by
  obtain ⟨d, rfl⟩ := Nat.exists_eq_add_of_le le
  exact ⟨_, by rw [resolvedIn, List.range_add, List.flatMap_append]; rfl⟩

theorem mem_resolvedIn {n k : ℕ} {o : TaggedOp} (member : o ∈ (inference n).ops) (lt : n < k) :
    text o.tag ∈ resolvedIn text inference k :=
  List.mem_flatMap.mpr ⟨n, List.mem_range.mpr lt, List.mem_map_of_mem member⟩

structure ProfiledIn (B : AccBuild) (P : Platform H) (evtyper : H → ℕ → Word)
    (enabled : H → ℕ → Bool) (h : BitVec 8) (a₀ : Acc) (text : ℕ → List (BitVec 8))
    (inference : ℕ → TaggedInference) (n : ℕ) (x : AccStore H) (m : Meter Word (ℕ × ℕ)) :
    Prop where
  profiled : Profiled B P evtyper enabled h a₀ text (resolvedIn text inference n) x n m
  totals : ∀ r < a₀.ops, ∀ e < a₀.events, m.total (r, e) =
    if e / 4 < n then ((inference (e / 4)).ops.map
      (TaggedOp.adds text (resolvedIn text inference (e / 4 + 1)) a₀ (e / 4) (r, e))).sum
    else 0

theorem ProfiledIn.next (answers : Answers P pmuV1_0_0) (laws : Counts P evtyper enabled occur)
    {n : ℕ} (counted : ProfiledIn B P evtyper enabled h a₀ text inference n x m) :
    ∃ m', ProfiledIn B P evtyper enabled h a₀ text inference (n + 1)
      (profileInference B P occur h text (inference n) x) m' := by
  obtain ⟨m', totals, profiled⟩ := counted.profiled.inference answers laws (inference n)
  rw [← resolvedIn_succ] at totals profiled
  refine ⟨m', profiled, fun r hr e he => ?_⟩
  rw [totals r hr e he, counted.totals r hr e he]
  by_cases now : n = e / 4
  · rw [if_neg (by omega), if_pos (by omega), Nat.zero_add, now]
  · have elsewhere : ((inference n).ops.map (TaggedOp.adds text (resolvedIn text inference (n + 1)) a₀
        n (r, e))).sum = 0 := by
      refine List.sum_eq_zero fun count member => ?_
      obtain ⟨o, -, rfl⟩ := List.mem_map.mp member
      exact if_neg fun both => now both.2
    rw [elsewhere, Nat.add_zero]
    exact if_congr (by omega) rfl rfl

theorem ProfiledIn.after (answers : Answers P pmuV1_0_0) (laws : Counts P evtyper enabled occur)
    (start : ProfiledIn B P evtyper enabled h a₀ text inference 0 x m) (n : ℕ) :
    ∃ m', ProfiledIn B P evtyper enabled h a₀ text inference n
      (afterReports (fun k => profileInference B P occur h text (inference k)) x n) m' := by
  induction n with
  | zero => exact ⟨m, start⟩
  | succ n ih =>
    obtain ⟨m', counted⟩ := ih
    rw [afterReports_succ]
    exact counted.next answers laws

theorem TagSession.row_iff {ops : ℕ} {accs : ℕ → Acc}
    (session : TagSession B text h ops seen accs) {tag : ℕ} (nonNull : tag ≠ 0)
    (given : (accmFindTag B text accs h tag).1 ≠ 65535) (content : List (BitVec 8)) :
    number seen ops content = some (accmFindTag B text accs h tag).1 ↔ content = text tag := by
  rw [session.find nonNull] at given ⊢
  cases known : number seen ops (text tag) with
  | none =>
    rw [known] at given
    exact absurd rfl given
  | some i =>
    constructor
    · intro same
      exact number_injective same known
    · rintro rfl
      exact known

theorem TagSession.given {ops : ℕ} {accs : ℕ → Acc}
    (session : TagSession B text h ops seen accs) {tag : ℕ} (nonNull : tag ≠ 0)
    (room : seen.eraseDups.length ≤ ops) (member : text tag ∈ seen) :
    (accmFindTag B text accs h tag).1 ≠ 65535 := by
  have few : ops ≤ 65535 := by
    rw [← session.ops]
    exact session.numbers.ops_le
  have inside : seen.eraseDups.idxOf (text tag) < seen.eraseDups.length :=
    List.idxOf_lt_length_of_mem (List.mem_eraseDups.mpr member)
  rw [session.find nonNull, number, if_pos ⟨member, inside.trans_le room⟩, Option.getD_some]
  omega

/-- On a platform that answers, a caller that reports inferences under tags until the accumulator is
complete needs exactly one for every four events. By then the row in which a tag is found has, for
each event, the number of occurrences of the event in all operators of that name during the one
inference that measures the event, and every reported tag is found if the matrix has a row for each
name. -/
theorem accumulator_profiles (answers : Answers P pmuV1_0_0) (laws : Counts P evtyper enabled occur)
    (accs : ℕ → Acc) (ops events : BitVec 16) (backingBuf : ℕ) (w : World H)
    (handle : h = (accmCreate B P accs ops events backingBuf w).1) (created : h ≠ 0xFF)
    (text : ℕ → List (BitVec 8)) (inference : ℕ → TaggedInference) :
    let needed := events.toNat ⌈/⌉ eventsPerRun
    ∃ final : Collection H,
      (∀ fuel, loop (untilComplete B h fun n => profileInference B P occur h text (inference n)) fuel
          ⟨(accmStart B P accs ops events backingBuf w).store, 0⟩ =
        if needed < fuel then some final else none) ∧
      final.inferences = needed ∧
      (∀ tag ≠ 0, (accmFindTag B text final.store.accs h tag).1 ≠ 65535 → ∀ e < events.toNat,
        (final.store.world.mem (backingBuf +
            ((accmFindTag B text final.store.accs h tag).1 * events.toNat + e))).toNat =
          ((inference (e / 4)).ops.map fun o =>
            if text o.tag = text tag then o.work.count (mapEventId e) else 0).sum % 2 ^ 32) ∧
      ((resolvedIn text inference needed).eraseDups.length ≤ ops.toNat →
        ∀ n < needed, ∀ o ∈ (inference n).ops,
          (accmFindTag B text final.store.accs h o.tag).1 ≠ 65535) := by
  subst handle
  intro needed
  have new := accmCreate_created created
  have start : ProfiledIn B P evtyper enabled (accmCreate B P accs ops events backingBuf w).1
      (.fresh ops events backingBuf) text inference 0
      (accmStart B P accs ops events backingBuf w).store .zero :=
    ⟨⟨new.metered laws _ fun _ => new.latest answers, tagSession_create created⟩,
      fun r hr e he => rfl⟩
  have counted := start.after answers laws
  have ends := untilComplete_ends (fun n => (counted n).imp fun _ counted => counted.profiled.store)
    events_covered
  obtain ⟨m, counted⟩ := counted needed
  have session := counted.profiled.tags
  refine ⟨_, ends, rfl, fun tag nonNull given e he => ?_, fun room n hn o member => ?_⟩
  · have measured : e / 4 < needed := by
      rw [← not_le, ← events_covered]
      omega
    have known := (session.row_iff nonNull given (text tag)).mpr rfl
    have row := (number_eq_some.mp known).1
    have held := counted.profiled.store.entry.cells _ row e he trivial
    rw [counted.totals _ row e he] at held
    refine held.trans (congrArg (· % 2 ^ 32) ((if_pos measured).trans ?_))
    refine congrArg List.sum (List.map_congr_left fun o member => if_congr ?_ rfl rfl)
    obtain ⟨later, order⟩ := resolvedIn_later text inference measured
    have resolved : text o.tag ∈ resolvedIn text inference (e / 4 + 1) :=
      mem_resolvedIn member (Nat.lt_succ_self _)
    have settled := number_settled resolved later (Acc.fresh ops events backingBuf).ops
    rw [← settled, ← order]
    exact (and_iff_left rfl).trans (session.row_iff nonNull given _)
  · exact session.given o.nonNull room (mem_resolvedIn member hn)

/-- Three operators of two names, the first name at two addresses. -/
def namedInference : TaggedInference where
  ops := [⟨11, by decide, [], [0x0003], [0x0003, 0x0003]⟩, ⟨12, by decide, [], [], [0x0003]⟩,
    ⟨21, by decide, [0x0003], [], [0x0003, 0x0003, 0x0003]⟩]
  idle := [0x0003]

theorem accumulator_profiles_ref :
    ∃ final : Collection RefPmu,
      (∀ fuel, loop (untilComplete .default 0 fun _ =>
            profileInference .default steadyPlatform RefPmu.occur 0 lastDigit namedInference) fuel
          ⟨(accmStart .default steadyPlatform (fun _ => .zero) 2 5 4096 RefPmu.start.world).store, 0⟩ =
        if 2 < fuel then some final else none) ∧
      (final.store.world.mem (4096 +
        ((accmFindTag .default lastDigit final.store.accs 0 11).1 * 5 + 2))).toNat = 5 := by
  obtain ⟨final, ends, -, cells, given⟩ := accumulator_profiles (B := .default) (h := 0)
    (steadyPlatform_answers _) steadyPlatform_counts (fun _ => .zero) 2 5 4096 RefPmu.start.world rfl
    (by decide) lastDigit (fun _ => namedInference)
  have found := given (by decide) 0 (by decide) _ List.mem_cons_self
  exact ⟨final, ends, cells 11 (by decide) found 2 (by decide)⟩

end NsxPmu
