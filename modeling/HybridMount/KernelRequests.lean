import HybridMount.KernelSync
import HybridMount.PayloadAgreement

/-! Requests to the kernel module and the tables which they can leave behind. -/

namespace HybridMount.Vfs

open LittleEndian

section

variable {σ : Type} {format : RecordFormat} {exec : Record → σ → Int32 × σ} {buffer : Bytes} {bufEnd : Nat}
  {walk : Walk σ}

@[simp] theorem note_state (err : Int32) (offset : Nat) : (walk.note err offset).state = walk.state := by
  unfold Walk.note
  split <;> rfl

@[simp] theorem close_state : (walk.close bufEnd).state = walk.state := by
  unfold Walk.close
  split <;> simp

@[simp] theorem close_executed : (walk.close bufEnd).executed = walk.executed := by
  unfold Walk.close
  split <;> simp

theorem executed_subset : ∀ x ∈ walk.executed, x ∈ (walkRecords format exec buffer bufEnd walk).executed := by
  fun_induction walkRecords format exec buffer bufEnd walk with
  | case1 walk hmore record read hbad failed =>
    have hexecuted : failed.executed = walk.executed := note_executed ..
    intro x hx
    simpa only [hexecuted] using hx
  | case2 walk hmore record read hgood ih =>
    intro x hx
    apply ih
    simp only [Walk.execute, read, note_executed]
    exact List.mem_append_left _ hx
  | case3 walk hdone => exact fun _ hx => hx

/-- Whatever a page holds, only records inside its data are executed, and what every
execution keeps is kept by the loop. -/
theorem walkRecords_keeps {I : σ → Prop} {C : Record → Prop}
    (hoffset : ∀ at', (format.header buffer at').offset = at')
    (hexec : ∀ record s, record.offset + format.headerLen + record.size ≤ bufEnd → C record → I s →
      I (exec record s).2)
    (hclean : ∀ x ∈ (walkRecords format exec buffer bufEnd walk).executed, C x.1) (h : I walk.state) :
    I (walkRecords format exec buffer bufEnd walk).state := by
  fun_induction walkRecords format exec buffer bufEnd walk with
  | case1 walk hmore record read hbad failed =>
    have hstate : failed.state = walk.state := note_state ..
    simp only [hstate]
    exact h
  | case2 walk hmore record read hgood ih =>
    have hrecord : record.offset = walk.cursor := hoffset walk.cursor
    have hfits : record.offset + format.headerLen + record.size ≤ bufEnd := by
      have hpos := format.positive
      have hlt : ¬ bufEnd - (walk.cursor + format.headerLen) < record.size := fun hh => hgood (Or.inl hh)
      omega
    have hexecuted : (read.execute exec format.headerLen record).executed =
        walk.executed ++ [(record, (exec record walk.state).1)] := by
      simp [Walk.execute, read]
    have hfirst : (record, (exec record walk.state).1) ∈
        (read.execute exec format.headerLen record).executed := by
      simp [hexecuted]
    exact ih hclean (hexec record walk.state hfits (hclean _ (executed_subset _ hfirst)) h)
  | case3 walk hdone => exact h

theorem runBatch_keeps {I : σ → Prop} {C : Record → Prop} {silent : σ → Int32}
    {payload : Protocol.Payload} {state : σ}
    (hoffset : ∀ buffer at', (format.header buffer at').offset = at')
    (hexec : ∀ record s, record.offset + format.headerLen + record.size ≤ payload.buffer.length →
      C record → I s →
      I (exec record s).2)
    (hclean : ∀ x ∈ (runBatch format exec silent payload state).2.executed, C x.1) (h : I state) :
    I (runBatch format exec silent payload state).2.state := by
  unfold runBatch at hclean ⊢
  simp only at hclean ⊢
  split at hclean
  · rename_i hbad
    rw [if_pos hbad]
    exact h
  · rename_i hgood
    rw [if_neg hgood]
    have hle : payload.dataSize ≤ payload.buffer.length := by omega
    rw [apply_ite Prod.snd, ite_self, close_executed] at hclean
    rw [apply_ite Prod.snd, ite_self, close_state]
    apply walkRecords_keeps (hoffset payload.buffer) _ hclean h
    intro record s hfits hC hs
    exact hexec record s (by omega) hC hs

end

namespace Kernel

def vPathAt (headerLen : Nat) (buffer : Bytes) (record : Record) : Bytes :=
  (buffer.drop (record.offset + headerLen)).take record.vLen

def requestAt (buffer : Bytes) (record : Record) : Request where
  vPath := vPathAt RULE_HEADER_LEN buffer record
  rPath := (buffer.drop (record.offset + RULE_HEADER_LEN + record.vLen)).take record.rLen
  flags := record.flags
  uid := .ofNat record.uid

/-- One record of `ADD_RULE`; without a kernel nothing is left to do. -/
def addRecord (env : Nat → Answers) (buffer : Bytes) (record : Record) : Option Kernel → Int32 × Option Kernel
  | none => (0, none)
  | some k =>
    match addRule env (requestAt buffer record) k with
    | none => (0, none)
    | some (err, k) => (err, some k)

def addPage (env : Nat → Answers) (payload : Protocol.Payload) (k : Kernel) :
    Protocol.Payload × Option Kernel :=
  let outcome := addRules (addRecord env payload.buffer) payload (some k)
  (outcome.1, outcome.2.state.map retire)

/-- The byte after the path of a record, which for the last one of a page lies behind the page. -/
def beyondAt (buffer : Bytes) (past : UInt8) (record : Record) : UInt8 :=
  (buffer ++ [past]).getD (record.offset + Protocol.DEL_HEADER_LEN + record.vLen) 0

def delRecord (env : Nat → Answers) (buffer : Bytes) (past : UInt8) (record : Record) (k : Kernel) :
    Int32 × Kernel :=
  delRule env (vPathAt Protocol.DEL_HEADER_LEN buffer record) (beyondAt buffer past record)
    (.ofNat record.uid) k

def delPage (env : Nat → Answers) (past : UInt8) (payload : Protocol.Payload) (k : Kernel) :
    Protocol.Payload × Kernel :=
  let outcome := delRules (delRecord env payload.buffer past) (fun k => k.victims.isEmpty) payload k
  (outcome.1, retire outcome.2.state)

/-- A request page of the size of the kernel's buffer, whose virtual paths are admitted. -/
structure PageOf (admits : Bytes → Prop) (env : Nat → Answers) (payload : Protocol.Payload)
    (k : Kernel) : Prop where
  length : payload.buffer.length = BUFFER_LEN
  paths : ∀ x ∈ (addRules (addRecord env payload.buffer) payload (some k)).2.executed,
    admits (vPathAt RULE_HEADER_LEN payload.buffer x.1)

/-- The tables which requests lead to; the kernel around the module answers as it likes. -/
inductive Reachable (admits : Bytes → Prop) : Kernel → Prop
  | boot : Reachable admits boot
  | add {k k' : Kernel} {reply : Protocol.Payload} (env : Nat → Answers) (payload : Protocol.Payload)
      (h : Reachable admits k) (hpage : PageOf admits env payload k)
      (hadd : addPage env payload k = (reply, some k')) :
      Reachable admits k'
  | del {k : Kernel} (env : Nat → Answers) (past : UInt8) (payload : Protocol.Payload)
      (h : Reachable admits k) :
      Reachable admits (delPage env past payload k).2
  | clear {k : Kernel} (h : Reachable admits k) : Reachable admits (clearAll k)

/-- A path of the file system ends at its first zero byte. -/
def ZeroFree (path : Bytes) : Prop := 0 ∉ path

/-- The handler itself does not look at the bytes of a path. -/
def AnyPath (_ : Bytes) : Prop := True

section

variable {admits : Bytes → Prop} {k k' : Kernel} {env : Nat → Answers} {payload : Protocol.Payload}

theorem Reachable.widen {admits' : Bytes → Prop} (h : Reachable admits k)
    (hle : ∀ path, admits path → admits' path) :
    Reachable admits' k := by
  induction h with
  | boot => exact .boot
  | add env payload _ hpage ha ih =>
    exact ih.add env payload ⟨hpage.length, fun x hx => hle _ (hpage.paths x hx)⟩ ha
  | del env past payload _ ih => exact ih.del env past payload
  | clear _ ih => exact ih.clear

/-- What a page does to a table is what its records do one after the other. -/
theorem addPage_keeps {I : Kernel → Prop} {reply : Protocol.Payload} (hpage : PageOf admits env payload k)
    (hadd : ∀ request k err k', I k → admits request.vPath →
      RULE_HEADER_LEN + request.vPath.length + request.rPath.length ≤ BUFFER_LEN →
        addRule env request k = some (err, k') → I k')
    (hk : I k) (h : addPage env payload k = (reply, some k')) : ∃ m, I m ∧ k' = retire m := by
  have hkeeps : ∀ m, (addRules (addRecord env payload.buffer) payload (some k)).2.state = some m → I m := by
    unfold addRules
    apply runBatch_keeps (I := fun s : Option Kernel => ∀ m, s = some m → I m)
      (C := fun record => admits (vPathAt RULE_HEADER_LEN payload.buffer record))
    · intro buffer at'
      rfl
    · intro record s hfits hpath hs m hm
      cases s with
      | none => simp [addRecord] at hm
      | some k =>
        simp only [addRecord] at hm
        cases ha : addRule env (requestAt payload.buffer record) k with
        | none => simp [ha] at hm
        | some outcome =>
          obtain ⟨err, k'⟩ := outcome
          simp only [ha, Option.some.injEq] at hm
          rw [← hm]
          apply hadd _ k err k' (hs k rfl) hpath _ ha
          have hlen : ruleFormat.headerLen = RULE_HEADER_LEN := rfl
          have hbuffer := hpage.length
          simp only [requestAt, vPathAt, List.length_take, List.length_drop]
          simp only [Record.size, hlen] at hfits
          omega
    · exact hpage.paths
    · intro m hm
      rw [← Option.some.inj hm]
      exact hk
  simp only [addPage, Prod.mk.injEq] at h
  obtain ⟨m, hm, rfl⟩ := Option.map_eq_some_iff.mp h.2
  exact ⟨m, hkeeps m hm, rfl⟩

theorem delPage_keeps {I : Kernel → Prop} {past : UInt8}
    (hdel : ∀ vPath beyond uid k, I k → I (delRule env vPath beyond uid k).2) (hk : I k) :
    ∃ m, I m ∧ (delPage env past payload k).2 = retire m := by
  refine ⟨_, ?_, rfl⟩
  unfold delRules
  apply runBatch_keeps (I := I) (C := fun _ => True)
  · intro buffer at'
    rfl
  · intro record s _ _ hs
    exact hdel _ _ _ s hs
  · exact fun _ _ => trivial
  · exact hk

/-- A property which every record of every request keeps is kept by whole pages. -/
theorem Reachable.invariant {I : Kernel → Prop} (hboot : I Kernel.boot)
    (hadd : ∀ env request k err k', I k → admits request.vPath →
      RULE_HEADER_LEN + request.vPath.length + request.rPath.length ≤ BUFFER_LEN →
        addRule env request k = some (err, k') → I k')
    (hdel : ∀ env vPath beyond uid k, I k → I (delRule env vPath beyond uid k).2)
    (hretire : ∀ k, I k → I (retire k)) (hclear : ∀ k, I k → I (clearAll k))
    (h : Reachable admits k) : I k := by
  induction h with
  | boot => exact hboot
  | add env payload h hpage ha ih =>
    obtain ⟨m, hm, rfl⟩ := addPage_keeps hpage (hadd env) ih ha
    exact hretire m hm
  | del env past payload h ih =>
    obtain ⟨m, hm, heq⟩ := @delPage_keeps _ env payload I past (hdel env) ih
    rw [heq]
    exact hretire m hm
  | clear h ih => exact hclear _ ih

theorem Reachable.synced (h : Reachable ZeroFree k) : Synced k := by
  apply h.invariant boot_synced
  · intro env request k err k' hk hpath hfits ha
    exact addRule_synced hk ⟨hpath, hfits⟩ ha
  · intro env vPath beyond uid k hk
    exact delRule_synced hk
  · intro k hk
    exact hk.of_same (same_retire k)
  · intro k _
    exact clearAll_synced k

/-- A page with one record. -/
def pageFor (request : Request) : Protocol.Payload :=
  Protocol.request .addRule 0 (Protocol.EncodedRule.writeRecord request.uid .hybridMount
    ⟨.ofNat request.flags, request.vPath, request.rPath⟩)

/-- The handler runs the one record, and reads the request from it. -/
theorem pageFor_served {request : Request}
    (hfits : RULE_HEADER_LEN + request.vPath.length + request.rPath.length ≤ BUFFER_LEN)
    (hflags : request.flags < 2 ^ 32) (s : Option Kernel) :
    ∃ record, record.offset = 0 ∧ requestAt (pageFor request).buffer record = request ∧
      (addRules (addRecord env (pageFor request).buffer) (pageFor request) s).2.executed.map
        Prod.fst = [record] ∧
      (addRules (addRecord env (pageFor request).buffer) (pageFor request) s).2.state =
        (addRecord env (pageFor request).buffer record s).2 := by
  let rule : Protocol.EncodedRule := ⟨.ofNat request.flags, request.vPath, request.rPath⟩
  have hsmall : request.vPath.length < PATH_MAX ∧ request.rPath.length < PATH_MAX := by
    simp only [BUFFER_LEN] at hfits
    simp only [PATH_MAX]
    omega
  have hlen : (rule.writeRecord request.uid .hybridMount).length ≤ BUFFER_LEN := by
    simpa [rule, Protocol.EncodedRule.recordLen, RuleFormat.extraBytes] using hfits
  have htiled : Tiled ruleFormat (Protocol.EncodedRule.writeRecord request.uid .hybridMount)
      (ruleRecord request.uid)
      (pageFor request) [rule] := by
    refine ⟨?_, ⟨[], List.replicate (BUFFER_LEN - (rule.writeRecord request.uid .hybridMount).length) 0, ?_,
      rfl, ?_⟩, ?_⟩
    · intro item hitem
      rw [List.mem_singleton.mp hitem]
      exact encodes_rule request.uid hsmall.1 hsmall.2
    · simp [pageFor, Protocol.request, rule]
    · simp [pageFor, Protocol.request, rule]
    · exact lt_of_le_of_lt hlen (by decide)
  have hserved := runBatch_items htiled (addRecord env (pageFor request).buffer) (fun _ => 0) s
  have hat : RuleAt request.uid (pageFor request).buffer (ruleRecord request.uid 0 rule) rule := by
    have hrecord := @ruleAt_record request.uid rule []
      (List.replicate (BUFFER_LEN - (rule.writeRecord request.uid .hybridMount).length) 0)
    exact hrecord
  refine ⟨ruleRecord request.uid 0 rule, rfl, ?_, hserved.visited, hserved.state⟩
  obtain ⟨-, -, -, -, hv, hr⟩ := hat
  obtain ⟨vPath, rPath, flags, uid⟩ := request
  have hflag : (UInt32.ofNat flags).toNat = flags := UInt32.toNat_ofNat_of_lt' hflags
  unfold slice at hv hr
  split at hv
  · split at hr
    · simp only [Option.some.injEq, Nat.add_sub_cancel_left] at hv hr
      simp only [requestAt, vPathAt]
      have huid : UInt32.ofNat (ruleRecord uid 0 rule).uid = uid := UInt32.ofNat_toNat
      have hflag' : (ruleRecord uid 0 rule).flags = flags := hflag
      rw [huid, hflag']
      exact congrArg₂ (fun v r => Request.mk v r flags uid) hv hr
    · cases hr
  · cases hv

theorem length_pageFor {request : Request}
    (hfits : RULE_HEADER_LEN + request.vPath.length + request.rPath.length ≤ BUFFER_LEN) :
    (pageFor request).buffer.length = BUFFER_LEN := by
  simp only [pageFor, Protocol.request, List.length_append, List.length_replicate]
  apply Nat.add_sub_cancel'
  simpa [Protocol.EncodedRule.recordLen, RuleFormat.extraBytes] using hfits

theorem Reachable.addOne {request : Request} {err : Int32} (h : Reachable admits k)
    (hfits : RULE_HEADER_LEN + request.vPath.length + request.rPath.length ≤ BUFFER_LEN)
    (hflags : request.flags < 2 ^ 32) (hpath : admits request.vPath)
    (ha : addRule env request k = some (err, k')) :
    Reachable admits (retire k') := by
  obtain ⟨record, -, hrequest, hexecuted, hstate⟩ := @pageFor_served env request hfits hflags (some k)
  have hnext : (addRecord env (pageFor request).buffer record (some k)).2 = some k' := by
    simp only [addRecord, hrequest, ha]
  refine h.add env (pageFor request) ⟨length_pageFor hfits, ?_⟩ (Prod.ext rfl ?_)
  · intro x hx
    have hmem : x.1 ∈ [record] := by
      rw [← hexecuted]
      exact List.mem_map_of_mem hx
    have hvPath := congrArg Request.vPath hrequest
    rw [List.mem_singleton.mp hmem]
    rw [← hvPath] at hpath
    exact hpath
  · show Option.map retire _ = _
    rw [hstate, hnext]
    rfl

theorem Reachable.victims (h : Reachable admits k) : k.victims = [] := by
  cases h with
  | boot => rfl
  | add env payload h hpage ha =>
    simp only [addPage, Prod.mk.injEq] at ha
    obtain ⟨m, -, rfl⟩ := Option.map_eq_some_iff.mp ha.2
    rfl
  | del env past payload h => rfl
  | clear h => rfl

end

end Kernel

end HybridMount.Vfs
