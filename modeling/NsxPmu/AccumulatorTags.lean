import NsxPmu.AccumulatorTable
import NsxPmu.Lib.FirstAppearance

set_option autoImplicit false

/-!
# Tags

The rows that the tags of a matrix get while the texts behind the pointers stay as
they are. The table keeps the pointers of the callers, and one text may lie at
several addresses.
-/
namespace NsxPmu
open Function (update)
open LabelledRuns FirstAppearance

variable {H : Type} {P : Platform H} {B : AccBuild} {text : ℕ → List (BitVec 8)}

def contentLookup (text : ℕ → List (BitVec 8)) (a : Acc) (tag : ℕ) (createIfMissing : Bool) :
    ℕ × Acc :=
  match (List.range a.nextRow).find? fun i => text (a.tagMap i).tag == text tag with
  | some i => ((a.tagMap i).row, a)
  | none =>
    if !createIfMissing || a.nextRow ≥ a.ops then (65535, a)
    else
      (a.nextRow, { a with
        nextRow := u16 (a.nextRow + 1), tagMap := update a.tagMap a.nextRow ⟨tag, a.nextRow⟩ })

/-- The table holds the first contents that were resolved, each at its number. -/
structure NumbersTags (text : ℕ → List (BitVec 8)) (seen : List (List (BitVec 8))) (a : Acc) :
    Prop where
  ops_le : a.ops ≤ 65535
  nextRow : a.nextRow = tableSize seen a.ops
  row : ∀ i < a.nextRow, (a.tagMap i).row = i
  nonNull : ∀ i < a.nextRow, (a.tagMap i).tag ≠ 0
  contents : ∀ i < a.nextRow, seen.eraseDups[i]? = some (text (a.tagMap i).tag)

section Lookup
variable {seen : List (List (BitVec 8))} {a : Acc}

theorem numbersTags_fresh (fresh : a.nextRow = 0) (ops : a.ops ≤ 65535) :
    NumbersTags text [] a := by
  have none_ : ∀ i, ¬ i < a.nextRow := by
    intro i
    omega
  refine ⟨ops, ?_, fun i lt => absurd lt (none_ i), fun i lt => absurd lt (none_ i),
    fun i lt => absurd lt (none_ i)⟩
  rw [fresh]
  simp [tableSize]

theorem NumbersTags.same {a' : Acc} (nums : NumbersTags text seen a) (ops : a'.ops = a.ops)
    (nextRow : a'.nextRow = a.nextRow) (tagMap : a'.tagMap = a.tagMap) :
    NumbersTags text seen a' := by
  refine ⟨?_, ?_, ?_, ?_, ?_⟩
  all_goals simp only [ops, nextRow, tagMap]
  · exact nums.ops_le
  · exact nums.nextRow
  · exact nums.row
  · exact nums.nonNull
  · exact nums.contents

theorem NumbersTags.scan (nums : NumbersTags text seen a) (c : List (BitVec 8)) :
    ((List.range a.nextRow).find? fun i => text (a.tagMap i).tag == c) = number seen a.ops c := by
  have table := nums.contents
  rw [nums.nextRow] at table ⊢
  exact find_number table c

/-- What the pass over the pointers finds is what the pass over the contents would find. -/
theorem NumbersTags.twoPass (nums : NumbersTags text seen a) (tag : ℕ) (create : Bool) :
    tagLookup text a tag create = contentLookup text a tag create := by
  unfold tagLookup contentLookup
  cases pointer : (List.range a.nextRow).find? fun i => (a.tagMap i).tag == tag with
  | none => rfl
  | some i =>
    have lt := List.mem_range.mp (List.mem_of_find?_eq_some pointer)
    have same : (a.tagMap i).tag = tag := by simpa using List.find?_some pointer
    have content := nums.contents i lt
    rw [same] at content
    rw [nums.nextRow] at lt
    rw [nums.scan, number_of_table lt content]

theorem NumbersTags.lookup (nums : NumbersTags text seen a) (tag : ℕ) (create : Bool) :
    tagLookup text a tag create =
      match number seen a.ops (text tag) with
      | some i => (i, a)
      | none =>
        if create = true ∧ a.nextRow < a.ops then
          (a.nextRow, { a with
            nextRow := a.nextRow + 1, tagMap := update a.tagMap a.nextRow ⟨tag, a.nextRow⟩ })
        else (65535, a) := by
  rw [nums.twoPass]
  unfold contentLookup
  rw [nums.scan]
  cases known : number seen a.ops (text tag) with
  | some i =>
    have lt := number_lt known
    rw [← nums.nextRow] at lt
    dsimp only
    rw [nums.row i lt]
  | none =>
    dsimp only
    by_cases room : create = true ∧ a.nextRow < a.ops
    · have small : a.nextRow + 1 < 65536 := by
        have le := nums.ops_le
        omega
      rw [if_pos room, if_neg (by simp [room.1, room.2]), u16_of_lt small]
    · have full : (!create || decide (a.nextRow ≥ a.ops)) = true := by
        cases create
        · rfl
        · simpa using room
      rw [if_neg room, if_pos full]

theorem NumbersTags.find (nums : NumbersTags text seen a) (tag : ℕ) :
    tagLookup text a tag false = ((number seen a.ops (text tag)).getD 65535, a) := by
  rw [nums.lookup]
  cases number seen a.ops (text tag) with
  | some i => rfl
  | none => rfl

theorem NumbersTags.known {i : ℕ} (nums : NumbersTags text seen a) {tag : ℕ}
    (known : number seen a.ops (text tag) = some i) (create : Bool) :
    tagLookup text a tag create = (i, a) := by
  rw [nums.lookup, known]

theorem NumbersTags.resolve_row (nums : NumbersTags text seen a) (tag : ℕ) :
    (tagLookup text a tag true).1 =
      (number (seen ++ [text tag]) a.ops (text tag)).getD 65535 := by
  cases known : number seen a.ops (text tag) with
  | some i =>
    rw [nums.known known, number_append known]
    rfl
  | none =>
    rw [nums.lookup, known, number_concat_new known, ← nums.nextRow]
    by_cases room : a.nextRow < a.ops
    · simp [room]
    · simp [room]

theorem NumbersTags.append_contents {a : Acc} (nums : NumbersTags text seen a)
    (c : List (BitVec 8)) :
    ∀ i < a.nextRow, (seen ++ [c]).eraseDups[i]? = some (text (a.tagMap i).tag) := by
  intro i lt
  have kept := nums.contents i lt
  rw [nums.nextRow] at lt
  exact (number_eq_some.mp (number_append (number_of_table lt kept) [c])).2

theorem forall_update_new {α : Type} {Q : ℕ → α → Prop} {table : ℕ → α} {n : ℕ} {entry : α}
    (old : ∀ i < n, Q i (table i)) (new : Q n entry) :
    ∀ i < n + 1, Q i (update table n entry i) := by
  intro i lt
  by_cases last : i = n
  · rw [last, Function.update_self]
    exact new
  · rw [Function.update_of_ne last]
    exact old i (by omega)

theorem NumbersTags.resolve (nums : NumbersTags text seen a) {tag : ℕ} (nonNull : tag ≠ 0) :
    NumbersTags text (seen ++ [text tag]) (tagLookup text a tag true).2 := by
  have size := tableSize_concat seen a.ops (text tag)
  have contents := nums.append_contents (text tag)
  rw [← nums.nextRow] at size
  rw [nums.lookup]
  cases known : number seen a.ops (text tag) with
  | some i =>
    rw [known, if_neg (by simp)] at size
    exact ⟨nums.ops_le, size.symm, nums.row, nums.nonNull, contents⟩
  | none =>
    have new := number_concat_new known
    rw [← nums.nextRow] at new
    by_cases room : a.nextRow < a.ops
    · rw [if_pos ⟨known, room⟩] at size
      rw [if_pos room] at new
      simp only [room, and_self, if_true]
      refine ⟨nums.ops_le, size.symm, ?_, ?_, ?_⟩
      · exact forall_update_new (Q := fun i (entry : TagMap) => entry.row = i) nums.row rfl
      · exact forall_update_new (Q := fun _ (entry : TagMap) => entry.tag ≠ 0) nums.nonNull nonNull
      · exact forall_update_new (Q := fun i (entry : TagMap) =>
          (seen ++ [text tag]).eraseDups[i]? = some (text entry.tag)) contents
          (number_eq_some.mp new).2
    · rw [if_neg fun h => room h.2] at size
      simp only [room, and_false, if_false]
      exact ⟨nums.ops_le, size.symm, nums.row, nums.nonNull, contents⟩

end Lookup

/-- The call does not destroy the matrix of the handle, and what it passes through the handle as a
tag points at the same texts as ever. -/
def TableCall.KeepsTexts (h : BitVec 8) (text : ℕ → List (BitVec 8)) : TableCall H → Prop
  | .destroy h' => h' ≠ h
  | .accm h' (.resolveTag text' _) => h' = h → text' = text
  | .accm h' (.findTag text' _) => h' = h → text' = text
  | _ => True

def AccCall.resolved : AccCall H → List (List (BitVec 8))
  | .resolveTag text tag => if tag = 0 then [] else [text tag]
  | _ => []

/-- The contents that a call resolves through the handle. -/
def TableCall.resolved (h : BitVec 8) : TableCall H → List (List (BitVec 8))
  | .accm h' call => if h' = h then call.resolved else []
  | _ => []

/-- The matrix under a handle, with room for `ops` rows, after `seen` was resolved. -/
structure TagSession (B : AccBuild) (text : ℕ → List (BitVec 8)) (h : BitVec 8) (ops : ℕ)
    (seen : List (List (BitVec 8))) (accs : ℕ → Acc) : Prop where
  live : handleToAcc B accs h = some h.toNat
  ops : (accs h.toNat).ops = ops
  numbers : NumbersTags text seen (accs h.toNat)

section Session
variable {h : BitVec 8} {ops : ℕ} {seen : List (List (BitVec 8))} {accs : ℕ → Acc}

theorem tagSession_create {ops events : BitVec 16} {backingBuf : ℕ} {w : World H}
    (created : (accmCreate B P accs ops events backingBuf w).1 ≠ 0xFF) :
    TagSession B text (accmCreate B P accs ops events backingBuf w).1 ops.toNat []
      (accmCreate B P accs ops events backingBuf w).2.1 := by
  have new := accmCreate_created created
  have small : ops.toNat ≤ 65535 := new.ops_le.trans B.maxOps_le
  refine ⟨new.live, ?_, numbersTags_fresh ?_ ?_⟩
  all_goals rw [new.entry]
  · rfl
  · rfl
  · exact small

theorem TagSession.congr {accs' : ℕ → Acc} (session : TagSession B text h ops seen accs)
    (same : accs' h.toNat = accs h.toNat) : TagSession B text h ops seen accs' := by
  obtain ⟨live, size, numbers⟩ := session
  rw [handleToAcc_live] at live
  constructor
  · rwa [handleToAcc_live, same]
  · rwa [same]
  · rwa [same]

theorem accStep_keeps_rows (a : Acc) (w : World H) {call : AccCall H}
    (noTag : ∀ text tag, call ≠ .resolveTag text tag ∧ call ≠ .findTag text tag) :
    (accStep P a w call).1.inUse = a.inUse ∧ (accStep P a w call).1.ops = a.ops ∧
      (accStep P a w call).1.nextRow = a.nextRow ∧ (accStep P a w call).1.tagMap = a.tagMap := by
  cases call with
  | resolveTag text tag => exact absurd rfl (noTag text tag).1
  | findTag text tag => exact absurd rfl (noTag text tag).2
  | inferenceBegin => exact ⟨rfl, rfl, rfl, rfl⟩
  | elapse f => exact ⟨rfl, rfl, rfl, rfl⟩
  | inferenceEnd =>
    dsimp only [accStep, inferenceEnd, cfgSelectEvents]
    split
    · exact ⟨rfl, rfl, rfl, rfl⟩
    · split
      · exact ⟨rfl, rfl, rfl, rfl⟩
      · exact ⟨rfl, rfl, rfl, rfl⟩
  | opBegin op =>
    dsimp only [accStep, opBegin]
    split
    · exact ⟨rfl, rfl, rfl, rfl⟩
    · exact ⟨rfl, rfl, rfl, rfl⟩
  | opEnd op =>
    dsimp only [accStep, opEnd]
    split
    · exact ⟨rfl, rfl, rfl, rfl⟩
    · exact ⟨rfl, rfl, rfl, rfl⟩

theorem accmTag_live (live : handleToAcc B accs h = some h.toNat) {tag : ℕ} (nonNull : tag ≠ 0)
    (create : Bool) :
    accmTag create B text accs h tag =
      ((tagLookup text (accs h.toNat) tag create).1,
        update accs h.toNat (tagLookup text (accs h.toNat) tag create).2) := by
  unfold accmTag
  rw [live]
  exact if_neg nonNull

theorem accmTag_null (create : Bool) : accmTag create B text accs h 0 = (65535, accs) := by
  unfold accmTag
  split
  · rfl
  · exact if_pos rfl

theorem TagSession.find (session : TagSession B text h ops seen accs) {tag : ℕ}
    (nonNull : tag ≠ 0) :
    accmFindTag B text accs h tag = ((number seen ops (text tag)).getD 65535, accs) := by
  unfold accmFindTag
  rw [accmTag_live session.live nonNull, session.numbers.find, session.ops, Function.update_eq_self]

theorem TagSession.resolve (session : TagSession B text h ops seen accs) {tag : ℕ}
    (nonNull : tag ≠ 0) :
    (accmResolveTag B text accs h tag).1 =
        (number (seen ++ [text tag]) ops (text tag)).getD 65535 ∧
      TagSession B text h ops (seen ++ [text tag]) (accmResolveTag B text accs h tag).2 := by
  unfold accmResolveTag
  rw [accmTag_live session.live nonNull]
  have row := session.numbers.resolve_row tag
  rw [session.ops] at row
  have fields := tagLookup_acc text (accs h.toNat) tag true
  have inside := (handleToAcc_live.mp session.live).1
  have used := (handleToAcc_live.mp session.live).2
  refine ⟨row, handleToAcc_live.mpr ⟨inside, ?_⟩, ?_, ?_⟩
  all_goals
    dsimp only
    rw [Function.update_self]
  · rw [fields]
    exact used
  · rw [fields]
    exact session.ops
  · exact session.numbers.resolve nonNull

theorem TagSession.known {i : ℕ} (session : TagSession B text h ops seen accs) {tag : ℕ}
    (nonNull : tag ≠ 0) (known : number seen ops (text tag) = some i) :
    accmResolveTag B text accs h tag = (i, accs) := by
  unfold accmResolveTag
  rw [← session.ops] at known
  rw [accmTag_live session.live nonNull, session.numbers.known known, Function.update_eq_self]

theorem TagSession.untagged {x : AccStore H} (session : TagSession B text h ops seen x.accs)
    {call : AccCall H}
    (noTag : ∀ text tag, call ≠ .resolveTag text tag ∧ call ≠ .findTag text tag) :
    TagSession B text h ops seen (accmStep B P h x call).accs := by
  obtain ⟨used, size, nextRow, tagMap⟩ :=
    accStep_keeps_rows (P := P) (x.accs h.toNat) x.world noTag
  have live := handleToAcc_live.mp session.live
  rw [accmStep_live P session.live]
  refine ⟨handleToAcc_live.mpr ⟨live.1, ?_⟩, ?_, ?_⟩
  all_goals
    dsimp only
    rw [Function.update_self]
  · exact used.trans live.2
  · exact size.trans session.ops
  · exact session.numbers.same size nextRow tagMap

theorem TagSession.accmStep {x : AccStore H} (session : TagSession B text h ops seen x.accs)
    {call : AccCall H} (keeps : (TableCall.accm h call).KeepsTexts h text) :
    TagSession B text h ops (seen ++ call.resolved) (NsxPmu.accmStep B P h x call).accs := by
  cases call with
  | resolveTag text' tag =>
    obtain rfl : text' = text := keeps rfl
    dsimp only [AccCall.resolved, NsxPmu.accmStep]
    by_cases null : tag = 0
    · subst null
      rw [if_pos rfl, List.append_nil, accmResolveTag, accmTag_null]
      exact session
    · rw [if_neg null]
      exact (session.resolve null).2
  | findTag text' tag =>
    obtain rfl : text' = text := keeps rfl
    dsimp only [AccCall.resolved, NsxPmu.accmStep]
    rw [List.append_nil]
    by_cases null : tag = 0
    · subst null
      rw [accmFindTag, accmTag_null]
      exact session
    · rw [session.find null]
      exact session
  | _ =>
    dsimp only [AccCall.resolved]
    rw [List.append_nil]
    apply session.untagged
    simp

theorem TagSession.step {x : AccStore H} (session : TagSession B text h ops seen x.accs)
    {call : TableCall H} (keeps : call.KeepsTexts h text) :
    TagSession B text h ops (seen ++ call.resolved h) (tableStep B P x call).accs := by
  have used := (handleToAcc_live.mp session.live).2
  by_cases through : call.handle? = some h
  · cases call with
    | create ops' events backingBuf => cases through
    | destroy h' => exact absurd (Option.some.inj through) keeps
    | accm h' call =>
      obtain rfl : h' = h := Option.some.inj through
      dsimp only [TableCall.resolved]
      rw [if_pos rfl]
      exact session.accmStep keeps
    | getLayer h' layer out callerCapacity =>
      dsimp only [TableCall.resolved]
      rw [List.append_nil]
      exact session
  · have silent : call.resolved h = [] := by
      cases call with
      | accm h' call => exact if_neg fun same => through (congrArg some same)
      | _ => rfl
    rw [silent, List.append_nil]
    exact session.congr (tableStep_spares used through)

theorem TagSession.run {x : AccStore H} (session : TagSession B text h ops seen x.accs)
    {calls : List (TableCall H)} (keeps : ∀ call ∈ calls, call.KeepsTexts h text) :
    TagSession B text h ops (seen ++ calls.flatMap (TableCall.resolved h))
      (LabelledRuns.run (tableStep B P) x calls).accs := by
  induction calls generalizing x seen with
  | nil =>
    rw [List.flatMap_nil, List.append_nil]
    exact session
  | cons call calls ih =>
    have next := session.step (P := P) (keeps call List.mem_cons_self)
    rw [List.flatMap_cons, ← List.append_assoc]
    exact ih next fun later member => keeps later (List.mem_cons_of_mem call member)

theorem TagSession.resolve_later {x : AccStore H} (session : TagSession B text h ops seen x.accs)
    {tag tag' : ℕ} (nonNull : tag ≠ 0) (nonNull' : tag' ≠ 0) {later : List (TableCall H)}
    (keeps : ∀ call ∈ later, call.KeepsTexts h text)
    (given : (accmResolveTag B text x.accs h tag).1 ≠ 65535) :
    (accmResolveTag B text (LabelledRuns.run (tableStep B P)
        (tableStep B P x (.accm h (.resolveTag text tag))) later).accs h tag').1 =
      (accmResolveTag B text x.accs h tag).1 ↔ text tag' = text tag := by
  obtain ⟨row, next⟩ := session.resolve nonNull
  have after : TagSession B text h ops (seen ++ [text tag])
      (tableStep B P x (.accm h (.resolveTag text tag))).accs := next
  have row' := ((after.run (P := P) keeps).resolve nonNull').1
  rw [row] at given ⊢
  cases first : number (seen ++ [text tag]) ops (text tag) with
  | none =>
    rw [first] at given
    exact absurd rfl given
  | some i =>
    rw [first] at given
    have isRow : (65535 : ℕ) ≠ i := Ne.symm given
    have stays := number_later (b := text tag') first
      (later.flatMap (TableCall.resolved h) ++ [text tag'])
    rw [row', List.append_assoc, ← stays, Option.getD_some, Option.getD_eq_iff]
    simp [isRow]

theorem TagSession.dense (session : TagSession B text h ops seen accs) {row : ℕ}
    (isRow : row ≠ 65535) :
    (∃ tag ≠ 0, (accmFindTag B text accs h tag).1 = row) ↔ row < tableSize seen ops := by
  have nextRow := session.numbers.nextRow
  rw [session.ops] at nextRow
  constructor
  · rintro ⟨tag, nonNull, eq⟩
    rw [session.find nonNull] at eq
    cases known : number seen ops (text tag) with
    | none =>
      rw [known] at eq
      exact absurd eq.symm isRow
    | some i =>
      rw [known] at eq
      obtain rfl : i = row := eq
      exact number_lt known
  · intro inside
    have lt : row < (accs h.toNat).nextRow := by rwa [nextRow]
    refine ⟨_, session.numbers.nonNull row lt, ?_⟩
    rw [session.find (session.numbers.nonNull row lt),
      number_of_table inside (session.numbers.contents row lt)]
    rfl

end Session

/-- In any run after the creation of a matrix in which it is not destroyed and the texts behind its
tags stay, whatever happens to other matrices: a tag is resolved to the position of its contents
among the distinct contents in the order in which they were first resolved, if the matrix has such
a row. The table of pointers and the two passes over it do not show. -/
theorem tag_rows_by_first_appearance {accs : ℕ → Acc} {ops events : BitVec 16} {backingBuf : ℕ}
    {w : World H} (created : (accmCreate B P accs ops events backingBuf w).1 ≠ 0xFF)
    (text : ℕ → List (BitVec 8)) (calls : List (TableCall H))
    (keeps : ∀ call ∈ calls,
      call.KeepsTexts (accmCreate B P accs ops events backingBuf w).1 text) :
    let r := accmCreate B P accs ops events backingBuf w
    let x := run (tableStep B P) ⟨r.2.1, r.2.2⟩ calls
    let resolve := accmResolveTag B text x.accs r.1
    let find := accmFindTag B text x.accs r.1
    let seen := calls.flatMap (TableCall.resolved r.1)
    (∀ tag ≠ 0, (resolve tag).1 =
      let order := (seen ++ [text tag]).eraseDups
      if order.idxOf (text tag) < ops.toNat then order.idxOf (text tag) else 65535) ∧
    (∀ tag ≠ 0, find tag =
      (if text tag ∈ seen ∧ seen.eraseDups.idxOf (text tag) < ops.toNat
        then seen.eraseDups.idxOf (text tag) else 65535, x.accs)) ∧
    (resolve 0 = (65535, x.accs) ∧ find 0 = (65535, x.accs)) ∧
    (∀ tag ≠ 0, (find tag).1 ≠ 65535 → resolve tag = find tag) ∧
    (∀ tag ≠ 0, ∀ tag' ≠ 0, ∀ later, (∀ call ∈ later, call.KeepsTexts r.1 text) →
      (resolve tag).1 ≠ 65535 →
      let y := run (tableStep B P) (tableStep B P x (.accm r.1 (.resolveTag text tag))) later
      (accmResolveTag B text y.accs r.1 tag').1 = (resolve tag).1 ↔ text tag' = text tag) ∧
    (∀ row ≠ 65535, (∃ tag ≠ 0, (find tag).1 = row) ↔
      row < min ops.toNat seen.eraseDups.length) ∧
    ∀ tag create, tagLookup text (x.accs r.1.toNat) tag create =
      contentLookup text (x.accs r.1.toNat) tag create := by
  intro r x resolve find seen
  have session : TagSession B text r.1 ops.toNat seen x.accs := by
    have start : TagSession B text r.1 ops.toNat [] r.2.1 := tagSession_create created
    exact start.run (x := ⟨r.2.1, r.2.2⟩) keeps
  refine ⟨?_, ?_, ⟨accmTag_null true, accmTag_null false⟩, ?_, ?_, ?_, ?_⟩
  · intro tag nonNull
    have member : text tag ∈ seen ++ [text tag] := by simp
    rw [(session.resolve nonNull).1, number]
    dsimp only
    by_cases room : (seen ++ [text tag]).eraseDups.idxOf (text tag) < ops.toNat
    · rw [if_pos ⟨member, room⟩, if_pos room]
      rfl
    · rw [if_neg fun h => room h.2, if_neg room]
      rfl
  · intro tag nonNull
    refine (session.find nonNull).trans ?_
    rw [number]
    congr 1
    split
    · rfl
    · rfl
  · intro tag nonNull known
    have row := session.find nonNull
    cases found : number seen ops.toNat (text tag) with
    | none =>
      rw [found] at row
      exact absurd (congrArg Prod.fst row) known
    | some i =>
      rw [found] at row
      exact (session.known nonNull found).trans row.symm
  · intro tag nonNull tag' nonNull' later keeps' given
    exact session.resolve_later nonNull nonNull' keeps' given
  · intro row isRow
    exact session.dense isRow
  · intro tag create
    exact session.numbers.twoPass tag create

def lastDigit (address : ℕ) : List (BitVec 8) := [BitVec.ofNat 8 (address % 10)]

/-- Three tags in a matrix of two rows, then the second text at another address. -/
theorem tag_rows_by_first_appearance_ref :
    let r := accmCreate .default refPlatform (fun _ => .zero) 2 1 4096 RefPmu.start.world
    let x := run (tableStep .default refPlatform) ⟨r.2.1, r.2.2⟩
      [.accm 0 (.resolveTag lastDigit 11), .accm 0 (.resolveTag lastDigit 12),
        .accm 0 (.resolveTag lastDigit 13)]
    (accmResolveTag .default lastDigit x.accs r.1 22).1 = 1 := by
  have created : (accmCreate .default refPlatform (fun _ => .zero) 2 1 4096
      RefPmu.start.world).1 ≠ 0xFF := by decide +kernel
  have rows := tag_rows_by_first_appearance created lastDigit
    [.accm 0 (.resolveTag lastDigit 11), .accm 0 (.resolveTag lastDigit 12),
      .accm 0 (.resolveTag lastDigit 13)]
    (by simp [TableCall.KeepsTexts])
  exact (rows.1 22 (by decide)).trans (by decide +kernel)

end NsxPmu
