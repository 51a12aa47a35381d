import HybridMount.Boot
import HybridMount.FlatTable
import HybridMount.HmTable

/-! The rules which the VFS phase of a boot finds in the table and did not plan. -/

namespace HybridMount.Boot

open Traced

section

variable {τ : Type} [RuleTable τ]

/-- The phase, and the rollback of its rules if the boot gives up later or unwinds. -/
def phaseThenRollback (config : Config) (plan : MountPlan) (nomount : Bool) (entry : VfsEntry)
    (rolledBack : Bool) :
    Op τ Unit := do
  match ← applyVfsPhase config plan nomount entry with
  | (registered, .panicked) => rollbackVfsRules registered
  | (registered, .returned _) => if rolledBack then rollbackVfsRules registered

/-- Every explicit rule is still listed, with its payload. -/
def Spared (m : Machine τ) (t : τ) : Prop :=
  ∀ r ∈ RuleTable.listing m.rules, derivedParent r = false → r ∈ RuleTable.listing t

/-- The explicit rules are there in every state of a run and at its end. -/
structure SparedThroughout (m : Machine τ) (run : Run (Session τ) (Event τ) Error Unit) : Prop where
  moments : ∀ e ∈ run.trace, Spared m e.before.rules ∧ Spared m e.after.rules
  ends : Spared m run.state.machine.rules

end

/-- A provider whose records concern no explicit rule but that of their own path and uid. -/
structure Keyed (τ : Type) [RuleTable τ] : Prop where
  put : ∀ (x r : SavedRule) (t t' : τ), RuleTable.put x t = .ok t' → r ∈ RuleTable.listing t →
    derivedParent r = false →
    r.key ≠ x.key → r ∈ RuleTable.listing t'
  delete : ∀ (x r : SavedRule) (t t' : τ), RuleTable.delete x t = .ok t' → r ∈ RuleTable.listing t →
    derivedParent r = false → r.key ≠ x.key → r ∈ RuleTable.listing t'

/-- The batch of a plan as the provider gets it. -/
def batchOf (plan : MountPlan) : List SavedRule := (planRules plan).rules.map EncodedRule.record

/-- The record which an event adds to the table. -/
def addedRecords (e : Event HmTable) : List SavedRule :=
  match e.action with
  | .effect (.put rules) => rules
  | _ => []

/-- The record which an event deletes from the table. -/
def deletedRecords (e : Event HmTable) : List SavedRule :=
  match e.action with
  | .effect (.delete rules) => rules
  | _ => []

/-- A step uses no directory node that has been freed. Its record names no explicit rule of the table
which the phase has found, and a deletion prunes none. -/
structure Gentle (m : Machine HmTable) (e : Event HmTable) : Prop where
  adds : ∀ x ∈ addedRecords e, e.before.rules.AddsSafely x ∧ ∀ r ∈ m.rules.explicit, ¬ HmTable.Names x r
  deletes : ∀ x ∈ deletedRecords e, e.before.rules.DeletesSafely x ∧
    ∀ r ∈ m.rules.explicit, ¬ HmTable.Names x r ∧ ¬ e.before.rules.Fells x r

instance (m : Machine HmTable) (e : Event HmTable) : Decidable (Gentle m e) :=
  decidable_of_iff (_ ∧ _) ⟨fun h => ⟨h.1, h.2⟩, fun h => ⟨h.adds, h.deletes⟩⟩

/-- The records keep what holds of the table, each in a step that the rely allows. -/
structure Steady {τ : Type} [RuleTable τ] (G : Event τ → Prop) (K : τ → Prop)
    (records : List SavedRule) : Prop where
  put : ∀ x ∈ records, ∀ m t, K m.rules → RuleTable.put x m.rules = .ok t →
    G ⟨.effect (.put [x]), false, m, m.withRules t⟩ → K t
  delete : ∀ x ∈ records, ∀ m t, K m.rules → RuleTable.delete x m.rules = .ok t →
    G ⟨.effect (.delete [x]), false, m, m.withRules t⟩ → K t

section

variable {τ : Type} [RuleTable τ] {G : Event τ → Prop} {K : τ → Prop} {config : Config} {plan : MountPlan}
  {nomount : Bool} {entry : VfsEntry} {batch : List EncodedRule} {m : Machine τ}

/-- Before and after an event. -/
def Held (K : τ → Prop) (e : Event τ) : Prop := K e.before.rules ∧ K e.after.rules

/-- A program in whose runs `K` holds of the table from one end to the other, whatever fails. -/
abbrev Keeping {α : Type} (G : Event τ → Prop) (K : τ → Prop) (program : Op τ α) : Prop :=
  Ensures G (Held K) (fun m => K m.rules) program (fun _ m => K m.rules) (fun _ m => K m.rules)

theorem list_keeping : Keeping G K Op.list :=
  Ensures.query (fun _ _ _ hm => ⟨hm, hm⟩) (fun _ hm => hm) fun _ _ hm _ => hm

theorem record_keeping {operation : Operation} {f : τ → Except Error τ}
    (h : ∀ m t, K m.rules → f m.rules = .ok t → G ⟨.effect operation, false, m, m.withRules t⟩ → K t) :
    Keeping G K (Op.record operation f) := by
  apply Ensures.record
  · intro m t hm hf hg
    have ht := h m t hm hf hg
    exact ⟨⟨hm, ht⟩, ht⟩
  · exact fun m _ hm _ _ => ⟨⟨hm, hm⟩, hm⟩

omit [RuleTable τ] in
theorem batch_keeping {β : Type} {operation : Operation} {one : β → Op τ Unit} {records : List β}
    (h : ∀ x ∈ records, Keeping G K (one x)) : Keeping G K (Op.batch operation one records) := by
  have hnote : ∀ action, Keeping G K (Op.note action) := fun action => Ensures.note fun m hm => ⟨hm, hm⟩
  have hrefuse : ∀ e, Keeping G K (Op.refuse operation e : Op τ Unit) :=
    fun _ => Ensures.refuse fun _ hm _ => ⟨⟨hm, hm⟩, hm⟩
  have hschedule : Ensures G (Held K) (fun m => K m.rules) (Op.schedule : Op τ (Option Fault))
      (fun _ m => K m.rules)
      fun _ m => K m.rules := Ensures.schedule
  refine Sat.bind (hnote _) fun _ => Sat.bind hschedule fun fault => ?_
  cases fault with
  | none => exact Sat.bind (Sat.forEach_invariant records h) fun _ => hnote _
  | some fault =>
    apply Sat.bind (Sat.forEach_invariant (records.take fault.applied) fun x hx =>
      h x (List.mem_of_mem_take hx))
    exact fun _ => hrefuse _

theorem sendRules_keeping (h : Steady G K (batch.map EncodedRule.record)) :
    Keeping G K (sendRules batch) := by
  unfold sendRules
  split
  · exact Sat.pure fun _ hs => hs
  · exact batch_keeping fun x hx => record_keeping (h.put x hx)

theorem removeRules_keeping (h : Steady G K (batch.map EncodedRule.record)) :
    Keeping G K (removeRules batch) := by
  unfold removeRules
  split
  · exact Sat.pure fun _ hs => hs
  · exact batch_keeping fun x hx => record_keeping (h.delete x hx)

omit [RuleTable τ] in
theorem addUids_keeping (uids : List UInt32) : Keeping G K (Op.addUids uids) :=
  batch_keeping fun _ _ => Ensures.change fun _ hm _ => ⟨⟨hm, hm⟩, hm⟩

theorem applyRulesWithPolicy_keeping (h : Steady G K (batch.map EncodedRule.record)) (uids : List UInt32)
    (strict : Bool) :
    Keeping G K (applyRulesWithPolicy batch uids strict) := by
  have happly : Keeping G K (applyRules batch uids) := by
    apply Sat.bind (sendRules_keeping h)
    intro _
    split
    · exact addUids_keeping _
    · exact Sat.pure fun _ hs => hs
  apply Sat.bind (Sat.attempt_keeps happly)
  intro r
  cases r with
  | ok _ => exact Sat.pure fun _ hs => hs
  | error err =>
    apply Sat.bind (Sat.attempt_keeps (removeRules_keeping h))
    intro r
    cases r with
    | error cleanup => exact Sat.fail fun _ hs => hs
    | ok _ =>
      cases strict with
      | true => exact Sat.fail fun _ hs => hs
      | false => exact Sat.pure fun _ hs => hs

theorem confirmApplied_keeping (batch : VfsApplied) :
    Ensures G (Held K) (fun m => K m.rules) (confirmApplied batch) (fun r m => K m.rules ∧ r.1 = batch.rules)
      fun _ m => K m.rules := by
  apply Sat.bind (Sat.attempt_keeps list_keeping)
  intro r
  cases r with
  | ok listed =>
    dsimp only
    split
    · exact Sat.pure fun _ hs => ⟨hs, rfl⟩
    · exact Sat.pure fun _ hs => ⟨hs, rfl⟩
  | error err => exact Sat.pure fun _ hs => ⟨hs, rfl⟩

/-- What the phase does with the table before its batch. -/
abbrev check (plan : MountPlan) (nomount : Bool) (entry : VfsEntry) : Op τ Unit :=
  if nomount then preflightNomount entry.format (planRules plan).rules else pure ()

theorem applyVfsPhase_keeping (hm : K m.rules)
    (hcheck : Ensures G (Held K) (· = m) (check plan nomount entry)
      (fun _ m' => m' = m ∧ Steady G K (batchOf plan)) fun _ m' => m' = m) :
    Ensures G (Held K) (· = m) (applyVfsPhase config plan nomount entry)
      (fun r m' => K m'.rules ∧ (r.1 = [] ∨ r.1 = (planRules plan).rules ∧ Steady G K (batchOf plan)))
      fun _ m' => K m'.rules := by
  have hself : ∀ s : Session τ, s.machine = m → K s.machine.rules := by
    rintro s rfl
    exact hm
  unfold applyVfsPhase
  split
  · exact Sat.pure fun s hs => ⟨hself s hs, .inl rfl⟩
  · split
    · exact Sat.pure fun s hs => ⟨hself s hs, .inl rfl⟩
    · exact Sat.pure fun s hs => ⟨hself s hs, .inl rfl⟩
    · exact Sat.pure fun s hs => ⟨hself s hs, .inl rfl⟩
    · apply Sat.attempt_bind hcheck
      · intro _
        refine (Sat.given (φ := Steady G K (batchOf plan)) fun hsteady => ?_).strengthen fun s hs =>
          ⟨hself s hs.1, hs.2⟩
        apply Sat.bind (Sat.attempt_keeps (applyRulesWithPolicy_keeping hsteady _ _))
        intro r
        rcases r with err | _ | failure
        · exact Sat.pure fun _ hs => ⟨hs, .inr ⟨rfl, hsteady⟩⟩
        · refine (confirmApplied_keeping _).weaken ?_ fun _ _ hs => hs
          rintro _ _ ⟨hs, hreg⟩
          exact ⟨hs, .inr ⟨hreg, hsteady⟩⟩
        · exact Sat.pure fun _ hs => ⟨hs, .inl rfl⟩
      · exact fun _ => Sat.pure fun s hs => ⟨hself s hs, .inl rfl⟩

/-- Whatever the phase and its rollback do, `K` holds if the batch is sent under a check that keeps it steady. -/
theorem phaseThenRollback_keeping (hm : K m.rules)
    (hcheck : Ensures G (Held K) (· = m) (check plan nomount entry)
      (fun _ m' => m' = m ∧ Steady G K (batchOf plan)) fun _ m' => m' = m) (rolledBack : Bool) :
    Ensures G (Held K) (· = m) (phaseThenRollback config plan nomount entry rolledBack)
      (fun _ m' => K m'.rules)
      fun _ m' => K m'.rules := by
  have hrollback : ∀ registered, Ensures G (Held K)
      (fun m' => K m'.rules ∧ (registered = [] ∨ registered = (planRules plan).rules ∧
        Steady G K (batchOf plan)))
      (rollbackVfsRules registered) (fun _ m' => K m'.rules) fun _ m' => K m'.rules := by
    intro registered
    refine (Sat.given fun hreg => ?_).strengthen fun s hs => hs
    unfold rollbackVfsRules
    split
    · exact Sat.pure fun _ hs => hs
    · rename_i hne
      rcases hreg with hnil | ⟨rfl, hsteady⟩
      · exact absurd hnil hne
      · exact removeRules_keeping hsteady
  apply Sat.bind (applyVfsPhase_keeping hm hcheck)
  rintro ⟨registered, outcome | -⟩
  · cases rolledBack with
    | false => exact Sat.pure fun _ hs => hs.1
    | true => exact hrollback registered
  · exact hrollback registered

theorem sparedThroughout_of_keeping {program : Op τ Unit} {faults : List (Option Fault)}
    (h : Ensures G (Held K) (· = m) program (fun _ m' => K m'.rules) fun _ m' => K m'.rules)
    (hspared : ∀ t, K t → Spared m t) (hg : ∀ e ∈ (program ⟨m, faults⟩).trace, G e) :
    SparedThroughout m (program ⟨m, faults⟩) := by
  obtain ⟨hmoments, hend⟩ := h ⟨m, faults⟩ rfl hg
  refine ⟨fun e he => ⟨hspared _ (hmoments e he).1, hspared _ (hmoments e he).2⟩, hspared _ ?_⟩
  cases hr : (program ⟨m, faults⟩).result with
  | ok _ =>
    rw [hr] at hend
    exact hend
  | error e =>
    rw [hr] at hend
    exact hend

/-- A preflight only lets a batch through which has the key of no explicit rule. -/
theorem preflightNomount_spec (format : RuleFormat) (hm : K m.rules) :
    Ensures G (Held K) (· = m) (preflightNomount format (planRules plan).rules)
      (fun _ m' => m' = m ∧ ∀ r ∈ RuleTable.listing m.rules, derivedParent r = false →
        ∀ x ∈ batchOf plan, r.key ≠ x.key)
      fun _ m' => m' = m := by
  have hlist : Ensures G (Held K) (· = m) Op.list
      (fun listed m' => m' = m ∧ listed = RuleTable.listing m.rules)
      fun _ m' => m' = m := by
    apply Ensures.query
    · rintro _ m' - rfl
      exact ⟨hm, hm⟩
    · rintro m' rfl
      exact ⟨rfl, rfl⟩
    · exact fun _ _ hs _ => hs
  apply Sat.bind (Sat.ofExcept (fun _ _ _ hs => hs) fun _ _ _ hs => hs)
  intro _
  apply Sat.bind hlist
  intro listed
  dsimp only
  split
  · exact Sat.fail fun _ hs => hs.1
  · rename_i hnone
    apply Sat.pure
    rintro s ⟨hs, rfl⟩
    refine ⟨hs, fun r hr hexplicit x hx hkey => ?_⟩
    simp only [batchOf, planRules, List.map_map, List.mem_map] at hx
    obtain ⟨rule, hrule, rfl⟩ := hx
    have huid : r.uid = 0 := congrArg Prod.snd hkey
    have hpath : r.virtualPath = (encodeRule rule).virtualPath := congrArg Prod.fst hkey
    apply List.find?_eq_none.mp hnone r hr
    simp only [huid, hexplicit, hpath, planRules, List.map_map, Bool.and_eq_true, List.contains_eq_mem,
      decide_eq_true_eq]
    exact ⟨⟨rfl, rfl⟩, List.mem_map_of_mem hrule⟩

theorem Keyed.steady (h : Keyed τ)
    (hapart : ∀ r ∈ RuleTable.listing m.rules, derivedParent r = false → ∀ x ∈ batchOf plan, r.key ≠ x.key) :
    Steady G (Spared m) (batchOf plan) where
  put x hx m' t hm hput _ := fun r hr hexplicit =>
    h.put x r m'.rules t hput (hm r hr hexplicit) hexplicit (hapart r hr hexplicit x hx)
  delete x hx m' t hm hdel _ := fun r hr hexplicit =>
    h.delete x r m'.rules t hdel (hm r hr hexplicit) hexplicit (hapart r hr hexplicit x hx)

end

/-- The explicit rules which the phase has found are still there. -/
def Kept (m : Machine HmTable) (t : HmTable) : Prop := ∀ r ∈ m.rules.explicit, r ∈ t.kernel.rules

section

variable {m : Machine HmTable}

theorem Kept.refl (m : Machine HmTable) : Kept m m.rules := fun _ hr => (List.mem_filter.mp hr).1

theorem Kept.spared {t : HmTable} (h : Kept m t) : Spared m t := by
  intro r hr hexplicit
  obtain ⟨rule, hrule, rfl⟩ := List.mem_map.mp hr
  exact List.mem_map_of_mem (h rule (List.mem_filter.mpr ⟨hrule, by rw [hexplicit, Bool.not_false]⟩))

theorem kept_steady (records : List SavedRule) : Steady (Gentle m) (Kept m) records where
  put x _ m' t hm hput hgentle := by
    obtain rfl : m'.rules.put x = t := Except.ok.inj hput
    obtain ⟨hsafe, hnames⟩ := hgentle.adds x List.mem_cons_self
    exact fun r hr => HmTable.mem_put hsafe (hm r hr) (hnames r hr)
  delete x _ m' t hm hdel hgentle := by
    obtain rfl : m'.rules.delete x = t := Except.ok.inj hdel
    obtain ⟨hsafe, hspares⟩ := hgentle.deletes x List.mem_cons_self
    exact fun r hr => HmTable.mem_delete hsafe (hm r hr) (hspares r hr).1 (hspares r hr).2

end

theorem flatTable_keyed : Keyed FlatTable where
  put x r t t' h hr _ hne := by
    obtain rfl : t.put x = t' := Except.ok.inj h
    exact FlatTable.mem_put.mpr (.inr ⟨hr, hne⟩)
  delete x r t t' h hr _ hne := by
    obtain rfl : t.delete x = t' := Except.ok.inj h
    exact FlatTable.mem_delete.mpr ⟨hr, hne⟩

section

open Vfs.Kernel (generous boot)

theorem served_boot : ∃ asked, Vfs.Kernel.Served asked boot := ⟨[], .boot⟩

/-- Memory and stock directories everywhere, and nothing that holds on to a directory node. -/
def quiet : Surroundings := ⟨fun _ => generous, 0, [], true, boot, served_boot⟩

/-- The table which other programs have filled. -/
def filled (rules : List SavedRule) : HmTable :=
  rules.foldl (fun t rule => t.put rule) ⟨boot, fun _ => quiet, 0, served_boot⟩

def hosts : SavedRule := ⟨"", "/system/etc/hosts", "/data/local/hosts", 0, 0⟩

def flatHosts : FlatTable := ⟨[hosts], List.nodup_singleton _⟩

def opaqueOpt : SavedRule := ⟨"", "/system/opt", "", FLAG_OPAQUE, 0⟩

def hiddenBelowOpt : SavedRule := ⟨"", "/system/opt/y", "", FLAG_WHITEOUT, 0⟩

/-- A module with one file. -/
def moduleFile (path : String) : MountPlan :=
  ⟨[⟨.inject path ("/data/adb/modules/m" ++ path), "m"⟩], ["m"], [], []⟩

def machineWith {τ : Type} (t : τ) : Machine τ := ⟨t, [], none, 0, [], []⟩

def readyFor (provider : VfsProvider) : VfsEntry := ⟨.ok (), .ok (), .ok provider, .hybridMount⟩

end

end HybridMount.Boot
