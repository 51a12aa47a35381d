import HybridMount.Boot

/-! Which apps see the rules of a boot while its batch is on the way into the kernel. -/

namespace HybridMount.Boot

open Traced

/-- A rule of the batch is in the table, under its path and with its source. -/
def Live (batch : List EncodedRule) (m : Machine FlatTable) : Prop :=
  ∃ rule ∈ batch, ∃ actual ∈ m.rules.rules, semanticEqual rule.record actual = true

def Isolated (uids : List UInt32) (m : Machine FlatTable) : Prop := ∀ uid ∈ uids, uid ∈ m.uids

def CleanupReported (result : Except Error (Option String)) : Prop :=
  ∃ cleanup err : Error, result = .error (.vfsProtocol ("vfs apply failed and targeted cleanup failed: " ++
    cleanup.message ++ "; apply error: " ++ err.message))

/-- Nothing is left of what an apply has added. -/
def Undone (m m' : Machine FlatTable) : Prop := m'.rules.rules ⊆ m.rules.rules ∧ m'.uids ⊆ m.uids

/-- No rule is visible before all uids are isolated, and a failed apply is undone or reported. -/
structure IsolatesFirst (batch : List EncodedRule) (uids : List UInt32) (strict : Bool)
    (s : Session FlatTable) :
    Prop where
  hidden : ∀ e ∈ (applyRulesWithPolicy batch uids strict s).trace,
    (Live batch e.before → Isolated uids e.before) ∧ (Live batch e.after → Isolated uids e.after)
  undone : (applyRulesWithPolicy batch uids strict s).result ≠ .ok none →
    ¬ CleanupReported (applyRulesWithPolicy batch uids strict s).result →
      Undone s.machine (applyRulesWithPolicy batch uids strict s).state.machine

/-- The uids are isolated from the start, no rule gets into the table, or there is no rule
and the uids which get in are isolated already. -/
def Shielded (batch : List EncodedRule) (uids : List UInt32) (s : Session FlatTable) : Prop :=
  Isolated uids s.machine ∨
    (batch ≠ [] ∧ ¬ Live batch s.machine ∧ partDone s.faults.head?.join batch = []) ∨
    (batch = [] ∧ ∀ fault, s.faults.head?.join = some fault →
      Isolated ((dedupeUids uids).take fault.applied) s.machine)

section

variable {batch : List EncodedRule} {uids : List UInt32} {strict : Bool} {s : Session FlatTable}
  {m m' : Machine FlatTable}

theorem put_run (rules : List SavedRule) (s : Session FlatTable) :
    let run := Op.put rules s
    let done := partDone s.faults.head?.join rules
    run.result = (match s.faults.head?.join with
      | none => .ok ()
      | some fault => .error (.msg fault.detail)) ∧
    run.state = ⟨s.machine.withRules (s.machine.rules.putAll done), s.faults.tail⟩ ∧
      (∀ e ∈ run.trace, (∃ xs, xs <+: done ∧ e.before = s.machine.withRules (s.machine.rules.putAll xs)) ∧
        ∃ xs, xs <+: done ∧ e.after = s.machine.withRules (s.machine.rules.putAll xs)) ∧
      (∃ e ∈ run.trace, e.before = s.machine) ∧
      ∃ e ∈ run.trace, e.after = s.machine.withRules (s.machine.rules.putAll done) := by
  have hrun := Op.batch_run (.put rules) (fun rule => .put [rule])
    (fun (m : Machine FlatTable) x => m.withRules (m.rules.put x))
    rules s
  simp only [Between, putAll_withRules] at hrun
  exact hrun

theorem delete_run (rules : List SavedRule) (s : Session FlatTable) :
    let run := Op.delete rules s
    let done := partDone s.faults.head?.join rules
    run.result = (match s.faults.head?.join with
      | none => .ok ()
      | some fault => .error (.msg fault.detail)) ∧
    run.state = ⟨s.machine.withRules (s.machine.rules.deleteAll done), s.faults.tail⟩ ∧
      ∀ e ∈ run.trace, (∃ xs, xs <+: done ∧ e.before = s.machine.withRules (s.machine.rules.deleteAll xs)) ∧
        ∃ xs, xs <+: done ∧ e.after = s.machine.withRules (s.machine.rules.deleteAll xs) := by
  have hrun := Op.batch_run (.delete rules) (fun rule => .delete [rule])
    (fun (m : Machine FlatTable) x => m.withRules (m.rules.delete x)) rules s
  simp only [Between, deleteAll_withRules] at hrun
  obtain ⟨hresult, hstate, htrace, -, -⟩ := hrun
  exact ⟨hresult, hstate, htrace⟩

theorem addUids_run (uids : List UInt32) (s : Session FlatTable) :
    let run := Op.addUids uids s
    let done := partDone s.faults.head?.join uids
    run.result = (match s.faults.head?.join with
      | none => .ok ()
      | some fault => .error (.msg fault.detail)) ∧
    run.state = ⟨s.machine.withUids (done.foldl addUid s.machine.uids), s.faults.tail⟩ ∧
      ∀ e ∈ run.trace, (∃ xs, xs <+: done ∧ e.before = s.machine.withUids (xs.foldl addUid s.machine.uids)) ∧
        ∃ xs, xs <+: done ∧ e.after = s.machine.withUids (xs.foldl addUid s.machine.uids) := by
  have hrun := Op.batch_run (.addUids uids) (fun uid => .addUids [uid])
    (fun (m : Machine FlatTable) uid => m.withUids (addUid m.uids uid)) uids s
  simp only [Between, Ensures.foldl_withUids] at hrun
  obtain ⟨hresult, hstate, htrace, -, -⟩ := hrun
  exact ⟨hresult, hstate, htrace⟩

theorem Live.of_subset (h : Live batch m') (hsub : m'.rules.rules ⊆ m.rules.rules) : Live batch m := by
  obtain ⟨rule, hrule, actual, hactual, heq⟩ := h
  exact ⟨rule, hrule, actual, hsub hactual, heq⟩

theorem deleteAll_subset (t : FlatTable) (rules : List SavedRule) : (t.deleteAll rules).rules ⊆ t.rules :=
  fun _ hr => (FlatTable.mem_deleteAll.mp hr).1

theorem live_putAll {done : List EncodedRule} (hne : done ≠ []) (hsub : done ⊆ batch)
    (m : Machine FlatTable) :
    Live batch (m.withRules (m.rules.putAll (done.map EncodedRule.record))) := by
  obtain ⟨init, last, rfl⟩ : ∃ init last, done = init ++ [last] :=
    ⟨_, _, (List.dropLast_append_getLast hne).symm⟩
  refine ⟨last, hsub (by simp), wire last.record, ?_, semanticEqual_wire _⟩
  rw [List.map_append, Machine.withRules_rules, FlatTable.putAll_append]
  exact FlatTable.mem_put.mpr (.inl rfl)

theorem partDone_map {α β : Type} (f : α → β) (fault : Option Fault) (xs : List α) :
    partDone fault (xs.map f) = (partDone fault xs).map f := by
  cases fault with
  | none => rfl
  | some fault => exact (List.map_take).symm

theorem partDone_subset {α : Type} (fault : Option Fault) (xs : List α) : partDone fault xs ⊆ xs := by
  cases fault with
  | none => exact List.Subset.refl xs
  | some fault => exact List.take_subset _ _

/-- The states between which a phase moves: only rules of the batch and configured uids come in. -/
structure Within (batch : List EncodedRule) (uids : List UInt32) (m m' : Machine FlatTable) : Prop where
  rules : ∀ r ∈ m'.rules.rules, r ∈ m.rules.rules ∨ ∃ rule ∈ batch, r.key = rule.record.key
  kept : m.uids ⊆ m'.uids
  known : ∀ uid ∈ m'.uids, uid ∈ m.uids ∨ uid ∈ uids

theorem Within.refl (m : Machine FlatTable) : Within batch uids m m :=
  ⟨fun _ hr => .inl hr, List.Subset.refl _, fun _ hu => .inl hu⟩

/-- An event between two states which keep a property. -/
def Both (P : Machine FlatTable → Prop) (e : Event FlatTable) : Prop := P e.before ∧ P e.after

theorem sendRules_within :
    Ensures (fun _ => True) (Both (Within batch uids m)) (Within batch uids m) (sendRules batch)
    (fun _ => Within batch uids m) (fun _ => Within batch uids m) := by
  have hone : ∀ x rest, Ensures (fun _ => True) (Both (Within batch uids m))
      (fun m' => x :: rest ⊆ batch.map EncodedRule.record ∧ Within batch uids m m')
      (Op.record (.put [x]) (RuleTable.put x))
      (fun _ m' => rest ⊆ batch.map EncodedRule.record ∧ Within batch uids m m')
      (fun _ => Within batch uids m) := by
    intro x rest
    apply Ensures.record
    · rintro m' t ⟨hsub, hm'⟩ ht -
      cases ht
      have hnext : Within batch uids m (m'.withRules (m'.rules.put x)) := by
        refine ⟨?_, hm'.kept, hm'.known⟩
        intro r hr
        rcases FlatTable.mem_put.mp hr with rfl | ⟨hr, -⟩
        · obtain ⟨rule, hrule, heq⟩ := List.mem_map.mp (hsub List.mem_cons_self)
          exact .inr ⟨rule, hrule, by rw [wire_key, heq]⟩
        · exact hm'.rules r hr
      exact ⟨⟨hm', hnext⟩, fun y hy => hsub (List.mem_cons_of_mem x hy), hnext⟩
    · intro m' e hm' he
      cases he
  unfold sendRules
  split
  · exact Sat.pure fun _ hs => hs
  · let I := fun rest m' => rest ⊆ batch.map EncodedRule.record ∧ Within batch uids m m'
    have hall : Ensures (fun _ => True) (Both (Within batch uids m)) (I (batch.map EncodedRule.record))
        (Op.put (batch.map EncodedRule.record)) (fun _ => I []) (fun _ => Within batch uids m) :=
      Ensures.batch (fun _ _ _ _ _ hm' => ⟨hm'.2, hm'.2⟩) hone fun _ _ _ _ hm' _ => hm'.2
    exact hall.consequence (fun s hs => ⟨List.Subset.refl _, hs⟩) (fun _ _ hs => hs.2) fun _ _ hs => hs

theorem addUids_within {xs : List UInt32} (hxs : xs ⊆ uids) :
    Ensures (fun _ => True) (Both (Within batch uids m))
    (Within batch uids m) (Op.addUids xs) (fun _ => Within batch uids m) (fun _ => Within batch uids m) := by
  apply Ensures.of_eq
  intro m' hm'
  have hpart : ∀ ys ⊆ xs, Within batch uids m (m'.withUids (ys.foldl addUid m'.uids)) := by
    intro ys hys
    refine ⟨hm'.rules, fun uid hu => mem_foldl_addUid.mpr (.inl (hm'.kept hu)), ?_⟩
    intro uid hu
    rcases mem_foldl_addUid.mp hu with hu | hu
    · exact hm'.known uid hu
    · exact .inr (hxs (hys hu))
  refine (Ensures.addUids xs fun _ ys zs _ _ hys hzs => ⟨hpart ys hys, hpart zs hzs⟩).weaken ?_ ?_
  · rintro _ s' hs'
    rw [hs']
    exact hpart xs (List.Subset.refl _)
  · rintro _ s' ⟨ys, hys, hs'⟩
    rw [hs']
    exact hpart ys hys

/-- A cleanup that succeeds leaves no rule under the keys of its batch. -/
theorem removeRules_within :
    Ensures (fun _ => True) (Both (Within batch uids m)) (Within batch uids m) (removeRules batch)
    (fun _ m' => Within batch uids m m' ∧ m'.rules.rules ⊆ m.rules.rules) (fun _ => Within batch uids m) := by
  apply Ensures.of_eq
  intro m' hm'
  have hpart : ∀ xs : List SavedRule, Within batch uids m (m'.withRules (m'.rules.deleteAll xs)) := by
    intro xs
    exact ⟨fun r hr => hm'.rules r (deleteAll_subset _ _ hr), hm'.kept, hm'.known⟩
  unfold removeRules
  split
  · rename_i hempty
    apply Sat.pure
    rintro s' rfl
    refine ⟨hm', ?_⟩
    intro r hr
    rcases hm'.rules r hr with hr | ⟨rule, hrule, -⟩
    · exact hr
    · rw [hempty] at hrule
      cases hrule
  · refine (Ensures.delete fun _ _ xs ys _ _ _ _ => ⟨hpart xs, hpart ys⟩).weaken ?_ ?_
    · rintro _ s' hs'
      rw [hs']
      refine ⟨hpart _, ?_⟩
      intro r hr
      obtain ⟨hr, hkey⟩ := FlatTable.mem_deleteAll.mp hr
      rcases hm'.rules r hr with hr | ⟨rule, hrule, heq⟩
      · exact hr
      · exact absurd heq (hkey rule.record (List.mem_map_of_mem hrule))
    · rintro _ s' ⟨-, xs, -, hs'⟩
      rw [hs']
      exact hpart xs

theorem applyRules_within : Ensures (fun _ => True) (Both (Within batch uids m)) (Within batch uids m)
    (applyRules batch uids) (fun _ => Within batch uids m) (fun _ => Within batch uids m) := by
  apply Sat.bind sendRules_within
  intro _
  split
  · exact addUids_within fun uid hu => mem_dedupeUids.mp hu
  · exact Sat.pure fun _ hs => hs

/-- After a failure the rules of the batch are gone, or the failure of the cleanup is reported. -/
theorem applyRulesWithPolicy_within :
    Ensures (fun _ => True) (Both (Within batch uids m)) (Within batch uids m)
    (applyRulesWithPolicy batch uids strict)
    (fun r m' => Within batch uids m m' ∧ (r ≠ none → m'.rules.rules ⊆ m.rules.rules))
    (fun e m' => Within batch uids m m' ∧
      (¬ CleanupReported (.error e) → m'.rules.rules ⊆ m.rules.rules)) := by
  apply Sat.bind (Sat.attempt_keeps applyRules_within)
  intro r
  cases r with
  | ok u => exact Sat.pure fun _ hs => ⟨hs, fun hne => absurd rfl hne⟩
  | error err =>
    have hcleanup : Ensures (fun _ => True) (Both (Within batch uids m)) (Within batch uids m)
        (Prog.attempt (removeRules batch))
        (fun r m' => Within batch uids m m' ∧ (r = .ok () → m'.rules.rules ⊆ m.rules.rules))
        (fun e m' => Within batch uids m m' ∧
          (¬ CleanupReported (.error e) → m'.rules.rules ⊆ m.rules.rules)) := by
      apply Sat.attempt
      exact removeRules_within.weaken (fun _ _ hs => ⟨hs.1, fun _ => hs.2⟩) fun _ _ hs =>
        ⟨hs, fun he => by cases he⟩
    apply Sat.bind hcleanup
    intro r
    cases r with
    | error cleanup => exact Sat.fail fun _ hs => ⟨hs.1, fun hno => absurd ⟨cleanup, err, rfl⟩ hno⟩
    | ok u =>
      cases strict with
      | true => exact Sat.fail fun _ hs => ⟨hs.1, fun _ => hs.2 rfl⟩
      | false => exact Sat.pure fun _ hs => ⟨hs.1, fun _ => hs.2 rfl⟩

theorem policy_applied (h : (applyRules batch uids s).result = .ok ()) :
    (applyRulesWithPolicy batch uids strict s).result = .ok none ∧
      (applyRulesWithPolicy batch uids strict s).trace = (applyRules batch uids s).trace := by
  simp [applyRulesWithPolicy, Bind.bind, Prog.bind, Prog.attempt, Pure.pure, Prog.pure, h]

theorem policy_failed {err : Error} (h : (applyRules batch uids s).result = .error err)
    (hclean : (removeRules batch (applyRules batch uids s).state).result = .ok ()) :
    ((applyRulesWithPolicy batch uids strict s).result = .ok (some err.message) ∨
        (applyRulesWithPolicy batch uids strict s).result = .error err) ∧
      (applyRulesWithPolicy batch uids strict s).state =
        (removeRules batch (applyRules batch uids s).state).state := by
  cases strict with
  | true => simp [applyRulesWithPolicy, Bind.bind, Prog.bind, Prog.attempt, Prog.fail, h, hclean]
  | false => simp [applyRulesWithPolicy, Bind.bind, Prog.bind, Prog.attempt, Pure.pure, Prog.pure, h, hclean]

/-- The trace of a phase is the trace of its apply and of a cleanup, if there is one. -/
theorem mem_policy_trace {e : Event FlatTable} :
    e ∈ (applyRulesWithPolicy batch uids strict s).trace ↔ e ∈ (applyRules batch uids s).trace ∨
      (∃ err, (applyRules batch uids s).result = .error err) ∧
        e ∈ (removeRules batch (applyRules batch uids s).state).trace := by
  cases h : (applyRules batch uids s).result with
  | ok u => simp [(policy_applied h).2]
  | error err =>
    cases hclean : (removeRules batch (applyRules batch uids s).state).result with
    | ok u =>
      cases strict with
      | true => simp [applyRulesWithPolicy, Bind.bind, Prog.bind, Prog.attempt, Prog.fail, h, hclean]
      | false =>
        simp [applyRulesWithPolicy, Bind.bind, Prog.bind, Prog.attempt, Pure.pure, Prog.pure, h, hclean]
    | error cleanup => simp [applyRulesWithPolicy, Bind.bind, Prog.bind, Prog.attempt, Prog.fail, h, hclean]

theorem applyRules_of_failed {err : Error} (h : (sendRules batch s).result = .error err) :
    applyRules batch uids s = ⟨.error err, (sendRules batch s).state, (sendRules batch s).trace⟩ := by
  simp [applyRules, Bind.bind, Prog.bind, h]

theorem sent_trace {e : Event FlatTable} (h : e ∈ (sendRules batch s).trace) :
    e ∈ (applyRules batch uids s).trace := by
  cases hr : (sendRules batch s).result with
  | error err =>
    rw [applyRules_of_failed hr]
    exact h
  | ok u => simp [applyRules, Bind.bind, Prog.bind, hr, h]

theorem applyRules_nil (uids : List UInt32) (s : Session FlatTable) :
    applyRules [] uids s = if dedupeUids uids ≠ [] then Op.addUids (dedupeUids uids) s
      else ⟨.ok (), s, []⟩ := by
  have hsend : sendRules ([] : List EncodedRule) s = ⟨.ok (), s, []⟩ := rfl
  split
  · simp [applyRules, Bind.bind, Prog.bind, *]
  · simp [applyRules, Bind.bind, Prog.bind, Pure.pure, Prog.pure, *]

theorem not_cleanupReported {text : String} {result : Except Error (Option String)} {failure : String}
    (h : result = .ok (some failure) ∨ result = .error (.msg text)) : ¬ CleanupReported result := by
  rintro ⟨cleanup, err, heq⟩
  rcases h with h | h
  · rw [h] at heq
    cases heq
  · rw [h] at heq
    cases heq

/-- A configured uid which an aborted batch has newly isolated stays isolated. -/
theorem uids_left {fault : Fault} (hf : s.faults.head?.join = some fault)
    (h : IsolatesFirst [] uids strict s) : Isolated ((dedupeUids uids).take fault.applied) s.machine := by
  intro uid huid
  have hne : dedupeUids uids ≠ [] := by
    intro hnil
    rw [hnil] at huid
    simp at huid
  obtain ⟨hresult, hstate, -⟩ := addUids_run (dedupeUids uids) s
  rw [hf] at hresult hstate
  have hrun : applyRules [] uids s = Op.addUids (dedupeUids uids) s := by rw [applyRules_nil, if_pos hne]
  have hfailed : (applyRules [] uids s).result = .error (.msg fault.detail) := by rw [hrun, hresult]
  have hclean : (removeRules ([] : List EncodedRule) (applyRules [] uids s).state).result = .ok () := rfl
  obtain ⟨hreturn, hend⟩ := @policy_failed [] uids strict s _ hfailed hclean
  have hundone := h.undone (by rcases hreturn with hr | hr <;> rw [hr] <;> simp) (not_cleanupReported hreturn)
  apply hundone.2
  have hfinal : (applyRulesWithPolicy [] uids strict s).state = (applyRules [] uids s).state := hend
  rw [hfinal, hrun, hstate]
  exact mem_foldl_addUid.mpr (.inr huid)

theorem shielded_of_isolatesFirst (h : IsolatesFirst batch uids strict s) : Shielded batch uids s := by
  by_cases hisolated : Isolated uids s.machine
  · exact .inl hisolated
  right
  by_cases hempty : batch = []
  · right
    rw [hempty] at h
    exact ⟨hempty, fun fault hf => uids_left hf h⟩
  · left
    have hsend : sendRules batch s = Op.put (batch.map EncodedRule.record) s := by
      unfold sendRules
      rw [if_neg hempty]
    obtain ⟨-, -, -, ⟨e, he, hbefore⟩, e', he', hafter⟩ := put_run (batch.map EncodedRule.record) s
    rw [← hsend] at he he'
    refine ⟨hempty, ?_, ?_⟩
    · intro hlive
      rw [← hbefore] at hlive hisolated
      exact hisolated ((h.hidden e (mem_policy_trace.mpr (.inl (sent_trace he)))).1 hlive)
    · by_contra hdone
      rw [partDone_map] at hafter
      have hlive := live_putAll hdone (partDone_subset _ batch) s.machine
      rw [← hafter] at hlive
      have hall := (h.hidden e' (mem_policy_trace.mpr (.inl (sent_trace he')))).2 hlive
      rw [hafter] at hall
      exact hisolated hall

/-- Uids which are isolated from the start stay so, and nothing is added to them. -/
theorem isolatesFirst_of_isolated (h : Isolated uids s.machine) : IsolatesFirst batch uids strict s := by
  obtain ⟨htrace, hend⟩ := @applyRulesWithPolicy_within batch uids strict s.machine s (Within.refl _)
    fun _ _ => trivial
  have hkept : ∀ m', Within batch uids s.machine m' → Isolated uids m' :=
    fun m' hm' uid hu => hm'.kept (h uid hu)
  have huids : ∀ m', Within batch uids s.machine m' → m'.uids ⊆ s.machine.uids := by
    intro m' hm' uid hu
    rcases hm'.known uid hu with hu | hu
    · exact hu
    · exact h uid hu
  refine ⟨fun e he => ⟨fun _ => hkept _ (htrace e he).1, fun _ => hkept _ (htrace e he).2⟩, ?_⟩
  intro hfailed hreported
  cases hr : (applyRulesWithPolicy batch uids strict s).result with
  | ok r =>
    rw [hr] at hend hfailed
    exact ⟨hend.2 (fun heq => hfailed (by rw [heq])), huids _ hend.1⟩
  | error e =>
    rw [hr] at hend hreported
    exact ⟨hend.2 hreported, huids _ hend.1⟩

/-- A batch which gets nothing into the table never shows a rule. -/
theorem isolatesFirst_of_nothing (hne : batch ≠ []) (hlive : ¬ Live batch s.machine)
    (hdone : partDone s.faults.head?.join batch = []) : IsolatesFirst batch uids strict s := by
  obtain ⟨fault, hf⟩ : ∃ fault, s.faults.head?.join = some fault := by
    cases hf : s.faults.head?.join with
    | none =>
      rw [hf] at hdone
      exact absurd hdone hne
    | some fault => exact ⟨fault, rfl⟩
  have hsend : sendRules batch s = Op.put (batch.map EncodedRule.record) s := by
    unfold sendRules
    rw [if_neg hne]
  obtain ⟨hresult, hstate, htrace, -, -⟩ := put_run (batch.map EncodedRule.record) s
  rw [partDone_map, hdone] at hstate htrace
  rw [hf] at hresult
  rw [← hsend] at hresult hstate htrace
  have happly := @applyRules_of_failed batch uids s _ hresult
  have hremoved : ∀ m', (∃ xs, m' = s.machine.withRules (s.machine.rules.deleteAll xs)) →
      ¬ Live batch m' := by
    rintro m' ⟨xs, rfl⟩ hl
    exact hlive (hl.of_subset (deleteAll_subset _ _))
  have hdelete : removeRules batch (applyRules batch uids s).state = Op.delete (batch.map EncodedRule.record)
      (applyRules batch uids s).state := by
    unfold removeRules
    rw [if_neg hne]
  obtain ⟨-, hdstate, hdtrace⟩ := delete_run (batch.map EncodedRule.record) (applyRules batch uids s).state
  rw [← hdelete] at hdstate hdtrace
  have hmachine : (applyRules batch uids s).state.machine = s.machine := by
    rw [happly, hstate]
    rfl
  rw [hmachine] at hdstate hdtrace
  constructor
  · intro e he
    rcases mem_policy_trace.mp he with he | ⟨-, he⟩
    · rw [happly] at he
      obtain ⟨⟨xs, hxs, hbefore⟩, ys, hys, hafter⟩ := htrace e he
      rw [List.map_nil, List.prefix_nil] at hxs hys
      rw [hbefore, hafter, hxs, hys]
      exact ⟨fun hl => absurd hl hlive, fun hl => absurd hl hlive⟩
    · obtain ⟨⟨xs, -, hbefore⟩, ys, -, hafter⟩ := hdtrace e he
      rw [hbefore, hafter]
      exact ⟨fun hl => absurd hl (hremoved _ ⟨xs, rfl⟩), fun hl => absurd hl (hremoved _ ⟨ys, rfl⟩)⟩
  · intro hfailed hreported
    have herr : (applyRules batch uids s).result = .error (.msg fault.detail) := by rw [happly]
    cases hclean : (removeRules batch (applyRules batch uids s).state).result with
    | error cleanup =>
      exfalso
      apply hreported
      refine ⟨cleanup, .msg fault.detail, ?_⟩
      simp [applyRulesWithPolicy, Bind.bind, Prog.bind, Prog.attempt, Prog.fail, herr, hclean]
    | ok u =>
      rw [(policy_failed herr hclean).2, hdstate]
      exact ⟨deleteAll_subset _ _, List.Subset.refl _⟩

/-- Without rules, only uids which were isolated anyway may get in before a failure. -/
theorem isolatesFirst_of_empty (h : ∀ fault, s.faults.head?.join = some fault →
    Isolated ((dedupeUids uids).take fault.applied) s.machine) : IsolatesFirst [] uids strict s := by
  have hnever : ∀ m : Machine FlatTable, ¬ Live [] m := by
    rintro m ⟨rule, hrule, -⟩
    cases hrule
  refine ⟨fun e _ => ⟨fun hl => absurd hl (hnever _), fun hl => absurd hl (hnever _)⟩, ?_⟩
  intro hfailed _
  have hrun := applyRules_nil uids s
  by_cases hne : dedupeUids uids ≠ []
  · rw [if_pos hne] at hrun
    obtain ⟨hresult, hstate, -⟩ := addUids_run (dedupeUids uids) s
    cases hf : s.faults.head?.join with
    | none =>
      rw [hf, ← hrun] at hresult
      exact absurd (policy_applied hresult).1 hfailed
    | some fault =>
      rw [hf] at hresult hstate
      rw [← hrun] at hresult hstate
      have hend : (applyRulesWithPolicy [] uids strict s).state = (applyRules [] uids s).state :=
        (policy_failed hresult rfl).2
      rw [hend, hstate]
      refine ⟨List.Subset.refl _, ?_⟩
      intro uid hu
      rcases mem_foldl_addUid.mp hu with hu | hu
      · exact hu
      · exact h fault hf uid hu
  · rw [if_neg hne] at hrun
    have hok : (applyRules [] uids s).result = .ok () := by rw [hrun]
    exact absurd (policy_applied hok).1 hfailed

end

end HybridMount.Boot
