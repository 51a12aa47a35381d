import HybridMount.Control
import HybridMount.Fallible

/-! The report on a change is positive exactly when all pages were accepted, the tables could be listed,
and they are as the request wants them. -/

namespace HybridMount.Control

open LittleEndian (Bytes)
open Protocol (NmCommand ListedRule)

/-- A rule of the table under its uid. -/
abbrev Row := UInt32 × Protocol.EncodedRule

def Row.listed (row : Row) : ListedRule := row.2.listed row.1

section Exact

variable {σ α τ : Type}

/-- A listing request changes nothing, and whenever it is answered, the answer holds what comes at
its cursor. -/
structure ListsExactly (exchange : Bytes → σ → Except Error Bytes × σ) (view : σ → τ) (command : NmCommand)
    (parse : Bytes → Except Error (List α × UInt32)) (items : List α) (s : σ) : Prop where
  steady : ∀ cursor, view (exchange (Vfs.listRequest command cursor).bytes s).2 = view s
  page : ∀ cursor ≤ items.length, cursor < 2 ^ 32 →
    ∀ page, (exchange (Vfs.listRequest command (.ofNat cursor)).bytes s).1 = .ok page →
    ∃ count < 2 ^ 32, Vfs.Turns (fun _ => .ok page) parse items cursor count

/-- A kernel that answers listings exactly. What it does with any other page is left open, and so is which
exchanges fail, and after how much of a page. -/
structure ExactKernel (σ : Type) (format : RuleFormat) where
  exchange : Bytes → σ → Except Error Bytes × σ
  rules : σ → List Row
  uids : σ → List UInt32
  keys : ∀ s, ((rules s).map fun row => (row.1, row.2.virtualPath)).Nodup
  text : ∀ s, ∀ row ∈ rules s, (∃ path, row.2.virtualPath = utf8 path) ∧ ∃ path, row.2.realPath = utf8 path
  listsRules : ∀ s, ListsExactly exchange (fun s => (rules s, uids s)) .getList
    (fun page => Vfs.withCursor (Protocol.parseListFor page format)) ((rules s).map Row.listed) s
  listsUids : ∀ s, ListsExactly exchange (fun s => (rules s, uids s)) .getUids
    (fun page => Vfs.withCursor (Protocol.parseUids page)) (uids s) s

end Exact

/-- The rule of a table under a path and a uid. -/
def lookup (rows : List Row) (path : Bytes) (uid : UInt32) : Option Protocol.EncodedRule :=
  (rows.find? fun row => row.1 = uid ∧ row.2.virtualPath = path).map Prod.snd

def lastRequest (rules : List Protocol.EncodedRule) (path : Bytes) : Option Protocol.EncodedRule :=
  rules.reverse.find? fun rule => rule.virtualPath = path

/-- The stored rule is what was asked for, up to the flags which the kernel adds. -/
structure Carries (stored asked : Protocol.EncodedRule) : Prop where
  realPath : stored.realPath = asked.realPath
  kind : stored.flags &&& (FLAG_WHITEOUT ||| FLAG_OPAQUE) = asked.flags
  directory : asked.flags &&& FLAG_OPAQUE ≠ 0 → stored.flags &&& FLAG_VIRTUAL_DIR ≠ 0

/-- The stored rule only connects the rules below its path. -/
structure Derived (stored : Protocol.EncodedRule) : Prop where
  virtual : stored.flags &&& FLAG_VIRTUAL_DIR ≠ 0
  plain : stored.flags &&& ~~~(1 ||| FLAG_VIRTUAL_DIR) = 0
  unbacked : stored.realPath = []

/-- The tables are as the request wants them. -/
def Satisfies (rules : List Row) (uids : List UInt32) : Mutation → Prop
  | .add asked uid =>
    ∀ path rule, lastRequest asked path = some rule → ∃ stored, lookup rules path uid = some stored ∧
      Carries stored rule
  | .delete paths uid => ∀ path ∈ paths, ∀ stored, lookup rules path uid = some stored → Derived stored
  | .addUids asked => ∀ uid ∈ asked, uid ∈ uids
  | .deleteUids asked => ∀ uid ∈ asked, uid ∉ uids
  | .clear scope => (scope ≠ .uids → rules = []) ∧ (scope ≠ .rules → uids = [])

section Runs

variable {σ : Type} (exchange : Bytes → σ → Except Error Bytes × σ)

/-- Every page was answered, and every answer accepted. -/
def AllAccepted (mutation : Mutation) : List Bytes → Session σ → Prop
  | [], _ => True
  | page :: rest, s =>
    (∃ response, (send exchange page s).1 = .ok response ∧ mutation.checkResponse response = .ok ()) ∧
      AllAccepted mutation rest (send exchange page s).2

/-- The tables that the request is about could be listed. -/
def ReadsBack (format : RuleFormat) (s : Session σ) : Mutation → Prop
  | .add _ _ | .delete _ _ | .clear .rules => ∃ rows, (listRules exchange format s).1 = .ok rows
  | .addUids _ | .deleteUids _ | .clear .uids => ∃ uids, (listUids exchange s).1 = .ok uids
  | .clear .all => (∃ rows, (listRules exchange format s).1 = .ok rows) ∧
      ∃ uids, (listUids exchange (listRules exchange format s).2).1 = .ok uids

end Runs

section Listing

variable {σ α τ : Type} {exchange : Bytes → σ → Except Error Bytes × σ} {view : σ → τ} {seen : τ}
  {command : NmCommand}
  {parse : Bytes → Except Error (List α × UInt32)} {items : List α} {cursor count : Nat} {page : Bytes}
    {s : Session σ}

theorem nextPage_end (h : Vfs.Turns (fun _ => .ok page) parse items items.length count) :
    nextPage parse page = .ok none := by
  obtain ⟨payload, size, hpage, hsize, hparse, hzero⟩ := h.page
  cases hpage
  have hinside := h.inside
  have hcount : count = 0 := by omega
  rw [hzero hcount] at hsize
  rw [hcount, List.take_zero] at hparse
  simp [nextPage, hparse, hsize, bind, Except.bind, Except.map, pure, Except.pure]

theorem nextPage_more (h : Vfs.Turns (fun _ => .ok page) parse items cursor count)
    (hc : cursor < items.length) :
    nextPage parse page = .ok (some ((items.drop cursor).take count, .ofNat (cursor + count))) := by
  obtain ⟨payload, size, hpage, -, hparse, -⟩ := h.page
  cases hpage
  have hfull := Vfs.isEmpty_take_drop hc (h.moves hc)
  simp [nextPage, hparse, hfull, bind, Except.bind, pure, Except.pure]

/-- A listing that succeeds has all items from its cursor on, whatever failed elsewhere. -/
theorem listFrom_exact (all : List α) (cursor : Nat)
    (hall : ∀ s, view s = seen → ListsExactly exchange view command parse items s) (hs : view s.kernel = seen)
    (hc : cursor ≤ items.length) (hlt : cursor < 2 ^ 32) :
    view (listFrom exchange command parse (.ofNat cursor) all s).2.kernel = seen ∧
      ∀ rows, (listFrom exchange command parse (.ofNat cursor) all s).1 = .ok rows →
        rows = all ++ items.drop cursor := by
  induction hn : items.length - cursor using Nat.strongRecOn generalizing cursor all s with
  | _ n ih =>
    have hexact := hall s.kernel hs
    have hsteady : view (exchange (Vfs.listRequest command (.ofNat cursor)).bytes s.kernel).2 = seen :=
      (hexact.steady _).trans hs
    rw [listFrom, Vfs.buildListPayload_eq]
    cases hreply : (exchange (Vfs.listRequest command (.ofNat cursor)).bytes s.kernel).1 with
    | error err => simp [send, hreply, Except.bind, hsteady]
    | ok page =>
      obtain ⟨count, hcount, hturn⟩ := hexact.page cursor hc hlt page hreply
      have hinside := hturn.inside
      by_cases hend : cursor = items.length
      · subst hend
        simp [send, hreply, Except.bind, nextPage_end hturn, hsteady]
      · have hmoves := hturn.moves (by omega)
        simp only [send, hreply, Except.bind, nextPage_more hturn (by omega)]
        by_cases hnext : UInt32.ofNat (cursor + count) ≤ UInt32.ofNat cursor
        · rw [dif_pos hnext]
          exact ⟨hsteady, fun rows hrows => by cases hrows⟩
        · have hsmall : cursor + count < 2 ^ 32 := by
            by_contra hbig
            apply hnext
            rw [UInt32.le_iff_toNat_le, UInt32.toNat_ofNat', UInt32.toNat_ofNat_of_lt' hlt]
            omega
          rw [dif_neg hnext]
          let request := (Vfs.listRequest command (.ofNat cursor)).bytes
          have hrest := ih (items.length - (cursor + count)) (by omega)
            (all ++ (items.drop cursor).take count) (cursor + count)
            (s := ⟨(exchange request s.kernel).2, s.requests ++ [request]⟩) hsteady hinside hsmall rfl
          refine ⟨hrest.1, fun rows hrows => (hrest.2 rows hrows).trans ?_⟩
          rw [List.append_assoc, ← List.drop_drop, List.take_append_drop]

end Listing

section Rows

variable {rows : List Row} {rules : List Protocol.EncodedRule} {rule stored : Protocol.EncodedRule}
  {path : Bytes} {uid : UInt32}

/-- With one rule under each key, the table's answer is any row with the key. -/
theorem lookup_iff (hkeys : (rows.map fun row => (row.1, row.2.virtualPath)).Nodup) :
    lookup rows path uid = some stored ↔ ∃ row ∈ rows, row.1 = uid ∧ row.2.virtualPath = path ∧
    row.2 = stored := by
  simp only [lookup, Option.map_eq_some_iff]
  constructor
  · intro h
    obtain ⟨row, hfind, hstored⟩ := h
    have hkey := List.find?_some hfind
    simp only [decide_eq_true_eq] at hkey
    exact ⟨row, List.mem_of_find?_eq_some hfind, hkey.1, hkey.2, hstored⟩
  · intro h
    obtain ⟨row, hrow, huid, hpath, hstored⟩ := h
    refine ⟨row, ?_, hstored⟩
    cases hfind : rows.find? fun row => row.1 = uid ∧ row.2.virtualPath = path with
    | none =>
      have hnot := List.find?_eq_none.mp hfind row hrow
      simp [huid, hpath] at hnot
    | some other =>
      have hkey := List.find?_some hfind
      simp only [decide_eq_true_eq] at hkey
      have hsame : other = row :=
        List.inj_on_of_nodup_map hkeys (List.mem_of_find?_eq_some hfind) hrow (by simp [hkey, huid, hpath])
      rw [hsame]

theorem get_expectedRules : OrderedMap.get compare path (expectedRules rules) = lastRequest rules path := by
  induction rules using List.reverseRecOn with
  | nil => rfl
  | append_singleton front last ih =>
    rw [expectedRules, List.foldl_append, List.foldl_cons, List.foldl_nil, OrderedMap.get_insert]
    rw [lastRequest, List.reverse_append, List.reverse_singleton, List.singleton_append, List.find?_cons]
    by_cases h : last.virtualPath = path
    · simp [h]
    · have hne : ¬path = last.virtualPath := fun heq => h heq.symm
      simp only [hne, if_false, h, decide_false]
      exact ih

theorem mem_expectedRules : (path, rule) ∈ expectedRules rules ↔ lastRequest rules path = some rule := by
  have hsorted : OrderedMap.Sorted compare (expectedRules rules) := by
    have hgrow : ∀ (rest : List Protocol.EncodedRule) (m : List (Bytes × Protocol.EncodedRule)),
        OrderedMap.Sorted compare m →
        OrderedMap.Sorted compare (rest.foldl
          (fun m rule => OrderedMap.insert compare rule.virtualPath rule m) m) := by
      intro rest
      induction rest with
      | nil => exact fun _ h => h
      | cons first rest ih => exact fun m h => ih _ (OrderedMap.sorted_insert h)
    exact hgrow rules [] .nil
  rw [← get_expectedRules]
  exact ⟨OrderedMap.get_of_mem hsorted, OrderedMap.get_mem⟩

variable (hkeys : (rows.map fun row => (row.1, row.2.virtualPath)).Nodup)
  (htext : ∀ row ∈ rows, (∃ path, row.2.virtualPath = utf8 path) ∧ ∃ path, row.2.realPath = utf8 path)

theorem listed_paths {row : Row}
    (h : (∃ path, row.2.virtualPath = utf8 path) ∧ ∃ path, row.2.realPath = utf8 path) :
    utf8 row.listed.virtualPath = row.2.virtualPath ∧ utf8 row.listed.realPath = row.2.realPath := by
  obtain ⟨⟨v, hv⟩, r, hr⟩ := h
  simp [Row.listed, Protocol.EncodedRule.listed, hv, hr, fromUtf8Lossy_utf8]

include hkeys htext

theorem confirmed_addition : (rows.map Row.listed).any (confirmsAddition uid path rule) = true ↔
    ∃ stored, lookup rows path uid = some stored ∧ Carries stored rule := by
  have hone : ∀ row ∈ rows, confirmsAddition uid path rule row.listed = true ↔
      row.1 = uid ∧ row.2.virtualPath = path ∧ Carries row.2 rule := by
    intro row hrow
    obtain ⟨hv, hr⟩ := listed_paths (htext row hrow)
    have hflags : row.listed.flags = row.2.flags := rfl
    have huid : row.listed.uid = row.1 := rfl
    simp only [confirmsAddition, hv, hr, hflags, huid, Bool.and_eq_true, Bool.or_eq_true, beq_iff_eq,
      bne_iff_ne, and_assoc]
    constructor
    · intro h
      obtain ⟨huid, hpath, hreal, hkind, hdirectory⟩ := h
      exact ⟨huid, hpath, hreal, hkind, fun hopaque => hdirectory.resolve_left hopaque⟩
    · intro h
      obtain ⟨huid, hpath, hreal, hkind, hdirectory⟩ := h
      exact ⟨huid, hpath, hreal, hkind, or_iff_not_imp_left.mpr hdirectory⟩
  simp only [List.any_map, List.any_eq_true, Function.comp_apply, lookup_iff hkeys]
  constructor
  · intro h
    obtain ⟨row, hrow, hconfirms⟩ := h
    obtain ⟨huid, hpath, hcarries⟩ := (hone row hrow).mp hconfirms
    exact ⟨row.2, ⟨row, hrow, huid, hpath, rfl⟩, hcarries⟩
  · intro h
    obtain ⟨stored, ⟨row, hrow, huid, hpath, rfl⟩, hcarries⟩ := h
    exact ⟨row, hrow, (hone row hrow).mpr ⟨huid, hpath, hcarries⟩⟩

theorem confirmed_deletion : (rows.map Row.listed).any (contradictsDeletion uid path) = false ↔
    ∀ stored, lookup rows path uid = some stored → Derived stored := by
  have hone : ∀ row ∈ rows, contradictsDeletion uid path row.listed = true ↔
      row.1 = uid ∧ row.2.virtualPath = path ∧ ¬Derived row.2 := by
    intro row hrow
    obtain ⟨hv, hr⟩ := listed_paths (htext row hrow)
    have hempty : row.listed.realPath = "" ↔ row.2.realPath = [] := by
      rw [← hr, ← List.length_eq_zero_iff, length_utf8, String.utf8ByteSize_eq_zero_iff]
    have hderived : isDerivedParent row.listed.flags row.listed.realPath = true ↔ Derived row.2 := by
      have hflags : row.listed.flags = row.2.flags := rfl
      simp only [isDerivedParent, hflags, Bool.and_eq_true, beq_iff_eq, bne_iff_ne, hempty, and_assoc]
      exact ⟨fun h => ⟨h.1, h.2.1, h.2.2⟩, fun h => ⟨h.virtual, h.plain, h.unbacked⟩⟩
    have huid : row.listed.uid = row.1 := rfl
    simp only [contradictsDeletion, hv, huid, Bool.and_eq_true, beq_iff_eq, Bool.not_eq_true', ← hderived,
      Bool.not_eq_true,
      and_assoc]
  simp only [List.any_map, List.any_eq_false, Function.comp_apply, lookup_iff hkeys]
  constructor
  · intro h stored hstored
    obtain ⟨row, hrow, huid, hpath, rfl⟩ := hstored
    by_contra hexplicit
    exact h row hrow ((hone row hrow).mpr ⟨huid, hpath, hexplicit⟩)
  · intro h row hrow hcontradicts
    obtain ⟨huid, hpath, hexplicit⟩ := (hone row hrow).mp hcontradicts
    exact hexplicit (h row.2 ⟨row, hrow, huid, hpath, rfl⟩)

end Rows

section Report

variable {σ : Type} {format : RuleFormat} (kernel : ExactKernel σ format)

theorem rules_listed (s : Session σ) :
    kernel.rules (listRules kernel.exchange format s).2.kernel = kernel.rules s.kernel ∧
    kernel.uids (listRules kernel.exchange format s).2.kernel = kernel.uids s.kernel ∧
      ∀ rows, (listRules kernel.exchange format s).1 = .ok rows →
        rows = (kernel.rules s.kernel).map Row.listed := by
  have hall : ∀ t, (kernel.rules t, kernel.uids t) = (kernel.rules s.kernel, kernel.uids s.kernel) →
      ListsExactly kernel.exchange (fun s => (kernel.rules s, kernel.uids s)) .getList
        (fun page => Vfs.withCursor (Protocol.parseListFor page format))
        ((kernel.rules s.kernel).map Row.listed) t := by
    intro t ht
    rw [← (Prod.mk.inj ht).1]
    exact kernel.listsRules t
  obtain ⟨hview, hrows⟩ := listFrom_exact [] 0 hall rfl (Nat.zero_le _) (by decide)
  exact ⟨(Prod.mk.inj hview).1, (Prod.mk.inj hview).2, fun rows h => hrows rows h⟩

theorem uids_listed (s : Session σ) : ∀ uids, (listUids kernel.exchange s).1 = .ok uids →
    uids = kernel.uids s.kernel := by
  have hall : ∀ t, (kernel.rules t, kernel.uids t) = (kernel.rules s.kernel, kernel.uids s.kernel) →
      ListsExactly kernel.exchange (fun s => (kernel.rules s, kernel.uids s)) .getUids
        (fun page => Vfs.withCursor (Protocol.parseUids page)) (kernel.uids s.kernel) t := by
    intro t ht
    rw [← (Prod.mk.inj ht).2]
    exact kernel.listsUids t
  exact fun uids h => (listFrom_exact [] 0 hall rfl (Nat.zero_le _) (by decide)).2 uids h

theorem readback_iff {α β : Type} {listed : Except Error α} {items : List β} {confirms : β → α → Bool}
    (holds : β → Prop)
    (h : ∀ rows, listed = .ok rows → ∀ item ∈ items, confirms item rows = true ↔ holds item) :
    ((noteReadback listed).1 = [] ∧ ∀ item ∈ items, (noteReadback listed).2.any (confirms item) = true) ↔
      (∃ rows, listed = .ok rows) ∧ ∀ item ∈ items, holds item := by
  cases listed with
  | error err => simp [noteReadback]
  | ok rows =>
    have hitems := h rows rfl
    simp only [noteReadback, Option.any_some, true_and, Except.ok.injEq, exists_eq']
    exact forall₂_congr hitems

theorem cleared_iff {α β : Type} (listed : Except Error (List α)) (table : List β)
    (h : ∀ rows, listed = .ok rows → (rows = [] ↔ table = [])) :
    ((noteReadback listed).1 = [] ∧ (noteReadback listed).2.any List.isEmpty = true) ↔
    (∃ rows, listed = .ok rows) ∧ table = [] := by
  cases listed with
  | error err => simp [noteReadback]
  | ok rows => simp [noteReadback, List.isEmpty_iff, h rows rfl]

/-- What the readback makes of the tables that are listed. -/
theorem verify_iff (mutation : Mutation) (s : Session σ) :
    ((verify kernel.exchange format s mutation).1.1 = [] ∧
      ∀ item ∈ (verify kernel.exchange format s mutation).1.2, item.confirmed = true) ↔
      ReadsBack kernel.exchange format s mutation ∧
        Satisfies (kernel.rules s.kernel) (kernel.uids s.kernel) mutation := by
  have hkeys := kernel.keys s.kernel
  have htext := kernel.text s.kernel
  obtain ⟨hrules, huids, hlisted⟩ := rules_listed kernel s
  cases mutation with
  | add asked uid =>
    simp only [verify, ReadsBack, Satisfies, List.forall_mem_map]
    rw [readback_iff fun e => ∃ stored, lookup (kernel.rules s.kernel) e.1 uid = some stored ∧
      Carries stored e.2]
    · simp only [Prod.forall, mem_expectedRules]
    · intro rows hrows e _
      rw [hlisted rows hrows]
      exact confirmed_addition hkeys htext
  | delete paths uid =>
    simp only [verify, ReadsBack, Satisfies, List.forall_mem_map]
    apply readback_iff _
    intro rows hrows path _
    rw [hlisted rows hrows, Bool.not_eq_true']
    exact confirmed_deletion hkeys htext
  | addUids asked =>
    simp only [verify, ReadsBack, Satisfies, List.forall_mem_map]
    apply readback_iff _
    intro rows hrows uid _
    rw [uids_listed kernel s rows hrows, List.contains_iff_mem]
  | deleteUids asked =>
    simp only [verify, ReadsBack, Satisfies, List.forall_mem_map]
    apply readback_iff _
    intro rows hrows uid _
    rw [uids_listed kernel s rows hrows]
    simp
  | clear scope =>
    have hclearRules := cleared_iff (listRules kernel.exchange format s).1 (kernel.rules s.kernel)
        fun rows hrows => by
      rw [hlisted rows hrows, List.map_eq_nil_iff]
    cases scope with
    | rules => simpa [verify, ReadsBack, Satisfies] using hclearRules
    | uids =>
      have hclearUids := cleared_iff (listUids kernel.exchange s).1 (kernel.uids s.kernel) fun uids h => by
        rw [uids_listed kernel s uids h]
      simpa [verify, ReadsBack, Satisfies] using hclearUids
    | all =>
      have hclearUids := cleared_iff (listUids kernel.exchange (listRules kernel.exchange format s).2).1
        (kernel.uids s.kernel) fun uids h => by rw [uids_listed kernel _ uids h, huids]
      simp only [verify, ReadsBack, Satisfies, List.append_eq_nil_iff, List.forall_mem_cons, List.not_mem_nil,
        false_imp_iff,
        implies_true, and_true, ne_eq, reduceCtorEq, not_false_eq_true, true_imp_iff]
      tauto

theorem sendPages_none {exchange : Bytes → σ → Except Error Bytes × σ} {mutation : Mutation}
    {pages : List Bytes} (index : Nat)
    {s : Session σ} : (sendPages exchange mutation pages index s).1 = none ↔
    AllAccepted exchange mutation pages s := by
  induction pages generalizing index s with
  | nil => simp [sendPages, AllAccepted]
  | cons page rest ih =>
    rw [sendPages, AllAccepted]
    cases hreply : (send exchange page s).1 with
    | error err => simp [Except.bind]
    | ok response =>
      cases hcheck : mutation.checkResponse response with
      | error err => simp [Except.bind, hcheck]
      | ok _ => simp [Except.bind, hcheck, ih]

end Report

section Module

/-- The tables of the kernel module, on valid texts. -/
structure Tables where
  rules : List Vfs.Rule
  uids : Vfs.UidArray
  fits : ∀ r ∈ rules, Vfs.Kernel.FitsPage r
  few : rules.length < 2 ^ 32
  keys : (rules.map fun r => (r.targetUid, r.vPath)).Nodup
  text : ∀ r ∈ rules, (∃ path, r.vPath = utf8 path) ∧ ∃ path, r.rPath = utf8 path

/-- The module and the schedule of failures: a number is how much of a page is executed before the
exchange fails. -/
structure Served where
  tables : Tables
  faults : List (Option Nat)

/-- The module answers listings from its tables; what a page of another kind does is a parameter. -/
def serve (execute : Bytes → Option Nat → Tables → Bytes × Tables) (request : Bytes) (s : Served) :
    Except Error Bytes × Served :=
  let payload := Vfs.readPayload request
  let fault := s.faults.head?.join
  let lists := payload.cmd = NmCommand.getList.code ∨ payload.cmd = NmCommand.getUids.code
  let answer := if lists then ((Vfs.processListing s.tables.rules s.tables.uids payload).bytes, s.tables)
    else execute request fault s.tables
  (if fault.isSome then .error (.msg "exchange failed") else .ok answer.1, ⟨answer.2, s.faults.tail⟩)

variable {execute : Bytes → Option Nat → Tables → Bytes × Tables} {command : NmCommand}

theorem serve_listing (hcommand : command = .getList ∨ command = .getUids) (cursor : UInt32) (s : Served) :
    (serve execute (Vfs.listRequest command cursor).bytes s).2.tables = s.tables ∧
      ∀ page, (serve execute (Vfs.listRequest command cursor).bytes s).1 = .ok page →
        Vfs.exchange s.tables.rules s.tables.uids (Vfs.listRequest command cursor).bytes = .ok page := by
  have hlists : (Vfs.listRequest command cursor).cmd = NmCommand.getList.code ∨
      (Vfs.listRequest command cursor).cmd = NmCommand.getUids.code := by
    rcases hcommand with rfl | rfl
    · exact .inl rfl
    · exact .inr rfl
  simp only [serve, Vfs.exchange, Vfs.readPayload_listRequest, if_pos hlists, true_and]
  intro page h
  cases hfault : s.faults.head?.join with
  | none => simpa [hfault] using h
  | some n => simp [hfault] at h

theorem turns_answer {α : Type} {fetch : UInt32 → Except Error Bytes}
    {parse : Bytes → Except Error (List α × UInt32)} {items : List α}
    {cursor count : Nat} {page : Bytes} (h : Vfs.Turns fetch parse items cursor count)
    (hfetch : fetch (.ofNat cursor) = .ok page) :
    Vfs.Turns (fun _ => .ok page) parse items cursor count := by
  obtain ⟨answer, size, hpage, hrest⟩ := h.page
  obtain rfl : page = answer := Except.ok.inj (hfetch.symm.trans hpage)
  exact ⟨⟨page, size, rfl, hrest⟩, h.inside, h.moves⟩

theorem serve_listsRules (execute : Bytes → Option Nat → Tables → Bytes × Tables) (s : Served) :
    ListsExactly (serve execute) (fun s => (s.tables.rules.map Vfs.Rule.wire, s.tables.uids.uids)) .getList
      (fun page => Vfs.withCursor (Protocol.parseListFor page .hybridMount))
      ((s.tables.rules.map Vfs.Rule.wire).map Row.listed) s := by
  refine ⟨fun cursor => by simp [(serve_listing (.inl rfl) cursor s).1], ?_⟩
  intro cursor hcursor hsmall page hpage
  have hanswer := (serve_listing (.inl rfl) (.ofNat cursor) s).2 page hpage
  have hitems : (s.tables.rules.map Vfs.Rule.wire).map Row.listed = s.tables.rules.map Vfs.Rule.listed := by
    simp [Function.comp_def, Row.listed, Protocol.EncodedRule.listed, Vfs.Rule.wire, Vfs.Rule.listed]
  rw [hitems] at hcursor ⊢
  rw [List.length_map] at hcursor
  have hfew := s.tables.few
  obtain ⟨count, hturn⟩ := @Vfs.turns_rules s.tables.rules s.tables.uids cursor s.tables.fits hfew.le
    hcursor hsmall
  have hinside := hturn.inside
  rw [List.length_map] at hinside
  refine ⟨count, by omega, turns_answer hturn ?_⟩
  simpa [Vfs.buildListPayload_eq, bind, Except.bind] using hanswer

theorem serve_listsUids (execute : Bytes → Option Nat → Tables → Bytes × Tables) (s : Served) :
    ListsExactly (serve execute) (fun s => (s.tables.rules.map Vfs.Rule.wire, s.tables.uids.uids)) .getUids
      (fun page => Vfs.withCursor (Protocol.parseUids page)) s.tables.uids.uids s := by
  refine ⟨fun cursor => by simp [(serve_listing (.inr rfl) cursor s).1], ?_⟩
  intro cursor hcursor _ page hpage
  have hanswer := (serve_listing (.inr rfl) (.ofNat cursor) s).2 page hpage
  have hcounted := s.tables.uids.counted
  obtain ⟨count, hturn⟩ := @Vfs.turns_uids s.tables.rules s.tables.uids cursor hcursor
  have hinside := hturn.inside
  refine ⟨count, by omega, turns_answer hturn ?_⟩
  simpa [Vfs.buildListPayload_eq, bind, Except.bind] using hanswer

/-- The module is an exact kernel, whatever its other pages do and whichever exchanges fail. -/
def moduleKernel (execute : Bytes → Option Nat → Tables → Bytes × Tables) :
    ExactKernel Served .hybridMount where
  exchange := serve execute
  rules s := s.tables.rules.map Vfs.Rule.wire
  uids s := s.tables.uids.uids
  keys s := by simpa [List.map_map, Function.comp_def, Vfs.Rule.wire] using s.tables.keys
  text s := by simpa [Vfs.Rule.wire] using s.tables.text
  listsRules := serve_listsRules execute
  listsUids := serve_listsUids execute

end Module

/-- No page is sent before all of them are encoded, and a report that all is well says no less and no more
than that every page was accepted and that the tables, as they were listed then, are as the request wants. -/
theorem mutate_reports {σ : Type} {format : RuleFormat} (kernel : ExactKernel σ format) (mutation : Mutation)
    (s : Session σ) :
    match mutation.pages format with
    | .error err => mutate kernel.exchange format mutation s = (.error err, s)
    | .ok pages =>
      let sent := (sendPages kernel.exchange mutation pages 0 s).2
      ∃ report, (mutate kernel.exchange format mutation s).1 = .ok report ∧
        (report.ok = true ↔ AllAccepted kernel.exchange mutation pages s ∧
          ReadsBack kernel.exchange format sent mutation ∧
          Satisfies (kernel.rules sent.kernel) (kernel.uids sent.kernel) mutation) := by
  unfold mutate
  cases hpages : mutation.pages format with
  | error err => rfl
  | ok pages =>
    refine ⟨_, rfl, ?_⟩
    rw [← verify_iff, ← sendPages_none 0]
    have hreadback : ∀ errors : List String,
        (if errors = [] then none else some (String.intercalate "; " errors)).isNone = true ↔
          errors = [] := by
      intro errors
      by_cases h : errors = []
      · simp [h]
      · simp [h]
    simp only [Bool.and_eq_true, hreadback, List.all_eq_true, Option.isNone_iff_eq_none, and_assoc]

end HybridMount.Control
