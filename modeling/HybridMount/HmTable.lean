import HybridMount.DeletionFrame
import HybridMount.Listing
import HybridMount.Machine

/-! The table of the kernel module, as the runtime operations change it one record at a time. -/

namespace HybridMount

namespace Vfs.Kernel

open LittleEndian

section

variable {k k' : Kernel} {env : Nat → Answers} {request : Request} {err : Int32} {asked : List Rule}
  {rule r : Rule}

theorem rules_detachRule (rule : Rule) (k : Kernel) :
    (detachRule rule false k).rules = k.rules.erase rule := by
  unfold detachRule
  simp only [Bool.false_eq_true, if_false]
  split
  · rfl
  · exact (deleteChild_leaving rule (k.unlink rule)).rules

/-- An addition takes away the rule of its own path and uid at most. -/
theorem mem_addRule (h : Served asked k) (hfits : request.Fits) (ha : addRule env request k = some (err, k'))
    (hr : r ∈ k.rules) (hkey : ¬ (r.vPath = stripSlashes request.vPath ∧ r.targetUid = request.uid)) :
    r ∈ k'.rules := by
  have hlow := h.synced.allocated r hr
  rcases allocRule_spec env hfits k with ⟨e, m, hfail, hsame, -⟩ | ⟨isDir, m, hmade, hsame, -, -⟩
  · simp only [addRule, hfail, Option.some.injEq, Prod.mk.injEq] at ha
    rw [← ha.2, hsame.rules]
    exact hr
  · obtain ⟨e, generated, k₁, k₂, made, hattach, -, hsub, hend⟩ := addRule_ends hmade ha
    have hsync := h.synced.of_same hsame
    have hshadow := (shrunk_shadowExisting hsync (request.rule k.nextId isDir)).nextId
    obtain ⟨hkeep, hgen, -⟩ := attach_spec hattach (by simp) List.nodup_nil le_rfl
    have hin : r ∈ (shadowExisting (request.rule k.nextId isDir) m).rules := by
      unfold shadowExisting
      split
      · rename_i existing hfound
        obtain ⟨-, hpath, huid⟩ := Art.searchExact_sound hsync.sound hfound
        have hne : r ≠ existing := fun heq => hkey (heq ▸ ⟨hpath, huid⟩)
        rw [rules_detachRule, (same_handOver _ existing m).1.rules, hsame.rules]
        exact (List.mem_erase_of_ne hne).mpr hr
      · rw [hsame.rules]
        exact hr
    have hlisted : r ∈ k₁.rules := by
      rw [hkeep.rules]
      exact hin
    rcases hend with ⟨-, rfl, hrules⟩ | ⟨-, rfl, hrules⟩
    · rw [hrules]
      exact List.mem_append_left _ (List.mem_append_left _ hlisted)
    · -- what a failed addition takes back is younger
      rw [rollback_rules, hrules]
      refine List.mem_diff_of_mem (List.mem_append_left _ hlisted) fun hback => ?_
      have hnew : k.nextId ≤ r.id := by
        rcases List.mem_cons.mp hback with rfl | hback
        · exact le_rfl
        · have hyoung := (hgen r (List.mem_reverse.mp hback)).low
          have hgrown := hsame.nextId
          omega
      omega

/-- A deletion takes away the rule it finds, and what falls with it. -/
theorem mem_delRule {vPath : Bytes} {beyond : UInt8} {uid : UInt32} (h : Served asked k) (hr : r ∈ k.rules)
    (hfound : ∀ x, lookup ⟨vPath, beyond, uid⟩ k = some x → r ≠ x ∧
      (k.hasChildren x = false → ¬ Falls k x r)) :
    r ∈ (delRule env vPath beyond uid k).2.rules := by
  unfold delRule
  dsimp only
  split
  · exact hr
  · rename_i x hlookup
    obtain ⟨hne, hfalls⟩ := hfound x hlookup
    have hx := (sought_of_lookup h.synced (show lookup ⟨vPath, beyond, uid⟩ k = some x from hlookup)).1
    cases hchildren : k.hasChildren x with
    | true =>
      rw [if_pos rfl]
      by_cases hflags : x.flags = IS_DIR ||| VIRTUAL_DIR
      · unfold preserveVirtualParent
        rw [if_pos hflags]
        exact hr
      · rcases preserve_spec h.synced hx hflags with ⟨hstand, hzero, -⟩ | ⟨-, herr, -⟩
        · exact (mem_preserve h.synced hx hflags hstand hzero).mpr ⟨hne, .inl hr⟩
        · exact preserve_keeps h.synced hx hflags herr r hr
    | false =>
      rw [if_neg (by decide)]
      exact ((detachRule_falls h.housed h.synced x).1 r).mpr ⟨hr, hfalls hchildren⟩

end

end Vfs.Kernel

open Vfs.Kernel (Served Known Explicit Falls GivenBack)

/-- What one record meets: the answers of the kernel around the module, the byte after its path, the
directory nodes which inodes and lookups hold, whether its page ends with it, and what becomes of the
table if it uses a node that has been freed. -/
structure Surroundings where
  answers : Nat → Vfs.Answers
  beyond : UInt8
  held : List Nat
  last : Bool
  wreck : { k : Vfs.Kernel // ∃ asked, Served asked k }

/-- A path leads to no directory node that is not made yet. -/
def Surroundings.env (around : Surroundings) (k : Vfs.Kernel) (t : Nat) : Vfs.Answers :=
  match (around.answers t).kernPath with
  | some (.virtual (some dir)) =>
    if dir < k.nextDir then around.answers t else { around.answers t with kernPath := some (.virtual none) }
  | _ => around.answers t

/-- A table which requests have led to, and what the next records meet. -/
structure HmTable where
  kernel : Vfs.Kernel
  around : Nat → Surroundings
  executed : Nat
  served : ∃ asked, Served asked kernel

namespace HmTable

def next (t : HmTable) : Surroundings := t.around t.executed

def request (rule : SavedRule) : Vfs.Kernel.Request :=
  ⟨utf8 rule.virtualPath, utf8 rule.realPath, rule.flags.toNat, rule.uid⟩

def target (t : HmTable) (rule : SavedRule) : Vfs.Kernel.Target :=
    ⟨utf8 rule.virtualPath, t.next.beyond, rule.uid⟩

/-- The victims are freed at the end of a page. -/
def settle (t : HmTable) (k : Vfs.Kernel) (h : ∃ asked, Served asked k) : HmTable where
  kernel := if t.next.last then k.retire else k
  around := t.around
  executed := t.executed + 1
  served := by
    obtain ⟨asked, hserved⟩ := h
    split
    · exact ⟨asked, hserved.retire⟩
    · exact ⟨asked, hserved⟩

instance (held : List Nat) (k : Vfs.Kernel) (dir : Nat) : Decidable (GivenBack (· ∈ held) k dir) :=
  inferInstanceAs (Decidable (_ ∧ _))

/-- An addition takes the rule it displaces out of no directory node that has been freed. -/
def AddsSafely (t : HmTable) (rule : SavedRule) : Prop :=
  ∀ x ∈ Vfs.Art.searchExact (Vfs.stripSlashes (utf8 rule.virtualPath)) 0 rule.uid t.kernel.root,
    ∀ dir ∈ t.kernel.parentDir x.id, ¬ GivenBack (· ∈ t.next.held) t.kernel dir

/-- A deletion reads no directory node that has been freed. -/
def DeletesSafely (t : HmTable) (rule : SavedRule) : Prop :=
  ∀ x ∈ Vfs.Kernel.lookup (t.target rule) t.kernel,
    ∀ dir ∈ Vfs.Kernel.delReads (t.next.env t.kernel) x t.kernel, ¬ GivenBack (· ∈ t.next.held) t.kernel dir

instance (t : HmTable) (rule : SavedRule) : Decidable (t.AddsSafely rule) :=
    inferInstanceAs (Decidable (∀ _ ∈ _, _))

instance (t : HmTable) (rule : SavedRule) : Decidable (t.DeletesSafely rule) :=
    inferInstanceAs (Decidable (∀ _ ∈ _, _))

/-- A record which fits no page is not sent. -/
def stored (t : HmTable) (rule : SavedRule) : Vfs.Kernel :=
  if (request rule).Fits then
    if t.AddsSafely rule then Vfs.Kernel.added (t.next.env t.kernel) (request rule) t.kernel else t.next.wreck
  else t.kernel

theorem known_env (around : Surroundings) (k : Vfs.Kernel) : Known (around.env k) k := by
  intro t dir h
  unfold Surroundings.env at h
  split at h
  · rename_i found hfound
    split at h
    · rename_i hlt
      rw [hfound, Option.some.injEq, Vfs.Inode.virtual.injEq, Option.some.injEq] at h
      exact h ▸ hlt
    · cases h
  · rename_i hno
    exact absurd h (hno dir)

theorem served_stored (t : HmTable) (rule : SavedRule) : ∃ asked, Served asked (t.stored rule) := by
  obtain ⟨asked, hserved⟩ := t.served
  unfold stored
  split
  · rename_i hfits
    split
    · unfold Vfs.Kernel.added
      cases ha : Vfs.Kernel.addRule (t.next.env t.kernel) (request rule) t.kernel with
      | none => exact ⟨asked, hserved⟩
      | some outcome => exact ⟨_, hserved.add hfits (known_env _ _) ha⟩
    · exact t.next.wreck.property
  · exact ⟨asked, hserved⟩

def deleted (t : HmTable) (rule : SavedRule) : Vfs.Kernel :=
  if t.DeletesSafely rule then
    (Vfs.Kernel.delRule (t.next.env t.kernel) (utf8 rule.virtualPath) t.next.beyond rule.uid t.kernel).2
  else t.next.wreck

theorem served_deleted (t : HmTable) (rule : SavedRule) : ∃ asked, Served asked (t.deleted rule) := by
  obtain ⟨asked, hserved⟩ := t.served
  unfold deleted
  split
  · exact ⟨asked, hserved.del _ _ _ _⟩
  · exact t.next.wreck.property

def put (t : HmTable) (rule : SavedRule) : HmTable := t.settle (t.stored rule) (t.served_stored rule)

def delete (t : HmTable) (rule : SavedRule) : HmTable := t.settle (t.deleted rule) (t.served_deleted rule)

def listed (rule : Vfs.Rule) : SavedRule :=
  ⟨"", rule.listed.virtualPath, rule.listed.realPath, rule.listed.flags, rule.listed.uid⟩

/-- What a page answers is left to the schedule of failures. -/
instance : RuleTable HmTable where
  listing t := t.kernel.rules.map listed
  put rule t := .ok (t.put rule)
  delete rule t := .ok (t.delete rule)

/-- The rule is on the list and falls when the record is deleted. -/
def Fells (t : HmTable) (rule : SavedRule) (r : Vfs.Rule) : Prop :=
  r ∈ t.kernel.rules ∧ ∃ x ∈ Vfs.Kernel.lookup (t.target rule) t.kernel, t.kernel.hasChildren x = false ∧
    Falls t.kernel x r

/-- The record names the path and uid of the rule. -/
def Names (rule : SavedRule) (r : Vfs.Rule) : Prop :=
  r.vPath = Vfs.stripSlashes (utf8 rule.virtualPath) ∧ r.targetUid = rule.uid

instance (rule : SavedRule) (r : Vfs.Rule) : Decidable (Names rule r) := inferInstanceAs (Decidable (_ ∧ _))

/-- The rules which the module did not generate. -/
def explicit (t : HmTable) : List Vfs.Rule := t.kernel.rules.filter fun r => !derivedParent (listed r)

section

variable {t : HmTable} {rule : SavedRule} {r : Vfs.Rule}

/-- The pruning itself tells which rules fall. -/
theorem fells_iff : t.Fells rule r ↔ r ∈ t.kernel.rules ∧ ∃ x ∈ Vfs.Kernel.lookup (t.target rule) t.kernel,
    t.kernel.hasChildren x = false ∧ r ∉ (Vfs.Kernel.detachRule x true t.kernel).rules := by
  obtain ⟨asked, hserved⟩ := t.served
  have hfalls : ∀ x, r ∈ t.kernel.rules →
      (Falls t.kernel x r ↔ r ∉ (Vfs.Kernel.detachRule x true t.kernel).rules) := by
    intro x hr
    rw [(Vfs.Kernel.detachRule_falls hserved.housed hserved.synced x).1 r]
    exact ⟨fun h hkept => hkept.2 h, fun h => by_contra fun hno => h ⟨hr, hno⟩⟩
  constructor
  · rintro ⟨hr, x, hx, hchildren, hfall⟩
    exact ⟨hr, x, hx, hchildren, (hfalls x hr).mp hfall⟩
  · rintro ⟨hr, x, hx, hchildren, hgone⟩
    exact ⟨hr, x, hx, hchildren, (hfalls x hr).mpr hgone⟩

instance : Decidable (t.Fells rule r) := decidable_of_iff _ fells_iff.symm

theorem rules_settle (t : HmTable) (k : Vfs.Kernel) (h : ∃ asked, Served asked k) :
    (t.settle k h).kernel.rules = k.rules := by
  unfold settle
  dsimp only
  split
  · exact (Vfs.Kernel.same_retire k).rules
  · rfl

theorem mem_put (hsafe : t.AddsSafely rule) (hr : r ∈ t.kernel.rules) (hkey : ¬ Names rule r) :
    r ∈ (t.put rule).kernel.rules := by
  obtain ⟨asked, hserved⟩ := t.served
  rw [put, rules_settle, stored, if_pos hsafe]
  split
  · rename_i hfits
    unfold Vfs.Kernel.added
    cases ha : Vfs.Kernel.addRule (t.next.env t.kernel) (request rule) t.kernel with
    | none => exact hr
    | some outcome => exact Vfs.Kernel.mem_addRule hserved hfits ha hr hkey
  · exact hr

theorem mem_delete (hsafe : t.DeletesSafely rule) (hr : r ∈ t.kernel.rules) (hkey : ¬ Names rule r)
    (hno : ¬ t.Fells rule r) : r ∈ (t.delete rule).kernel.rules := by
  obtain ⟨asked, hserved⟩ := t.served
  rw [delete, rules_settle, deleted, if_pos hsafe]
  refine Vfs.Kernel.mem_delRule hserved hr fun x hlookup => ⟨fun heq => ?_, fun hchildren hfalls => ?_⟩
  · obtain ⟨-, hpath, huid⟩ := Vfs.Kernel.sought_of_lookup hserved.synced hlookup
    exact hkey (heq ▸ ⟨hpath, huid⟩)
  · exact hno ⟨hr, x, hlookup, hchildren, hfalls⟩

end

end HmTable

end HybridMount
