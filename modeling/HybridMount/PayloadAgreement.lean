import HybridMount.PayloadLoop

/-! The pages which the encoder builds and the batch loops of the kernel agree on
the records: what is packed is what is executed. -/

namespace HybridMount.Vfs

open LittleEndian

/-- The packed struct as the kernel maps it over a page. -/
def readPayload (page : Bytes) : Protocol.Payload where
  magic := readLe page 0 8
  cmd := readLe page 8 4
  targetUid := readLe page 12 4
  status := readLe page 16 4
  arg1 := readLe page 20 4
  dataSize := readLe page 24 4
  buffer := page.drop 28

theorem readLe_of_eq (before after : Bytes) {whole : Bytes} {offset width n : Nat}
    (hw : whole = before ++ (encode width n ++ after)) (ho : offset = before.length) (hn : n < 256 ^ width) :
    readLe whole offset width = n := by
  subst hw ho
  have htake : ((before ++ (encode width n ++ after)).drop before.length).take width = encode width n := by
    rw [List.drop_left, List.take_left' (length_encode width n)]
  rw [readLe, htake, decode_encode_of_lt hn]

theorem readPayload_bytes {payload : Protocol.Payload} (hm : payload.magic < 256 ^ 8)
    (hc : payload.cmd < 256 ^ 4)
    (ht : payload.targetUid < 256 ^ 4) (hs : payload.status < 256 ^ 4) (ha : payload.arg1 < 256 ^ 4)
    (hd : payload.dataSize < 256 ^ 4) : readPayload payload.bytes = payload := by
  have hmagic : readLe payload.bytes 0 8 = payload.magic := readLe_of_eq [] _ rfl rfl hm
  have hcmd : readLe payload.bytes 8 4 = payload.cmd :=
    readLe_of_eq (encode 8 payload.magic) _ rfl (by simp) hc
  have huid : readLe payload.bytes 12 4 = payload.targetUid :=
    readLe_of_eq (encode 8 payload.magic ++ encode 4 payload.cmd)
      (encode 4 payload.status ++ (encode 4 payload.arg1 ++ (encode 4 payload.dataSize ++ payload.buffer)))
      (by simp [Protocol.Payload.bytes]) (by simp) ht
  have hstatus : readLe payload.bytes 16 4 = payload.status :=
    readLe_of_eq (encode 8 payload.magic ++ (encode 4 payload.cmd ++ encode 4 payload.targetUid))
      (encode 4 payload.arg1 ++ (encode 4 payload.dataSize ++ payload.buffer))
      (by simp [Protocol.Payload.bytes]) (by simp) hs
  have harg : readLe payload.bytes 20 4 = payload.arg1 :=
    readLe_of_eq (encode 8 payload.magic ++ (encode 4 payload.cmd ++ (encode 4 payload.targetUid ++
      encode 4 payload.status))) (encode 4 payload.dataSize ++ payload.buffer)
      (by simp [Protocol.Payload.bytes]) (by simp) ha
  have hsize : readLe payload.bytes 24 4 = payload.dataSize :=
    readLe_of_eq (encode 8 payload.magic ++ (encode 4 payload.cmd ++ (encode 4 payload.targetUid ++
      (encode 4 payload.status ++ encode 4 payload.arg1)))) payload.buffer
      (by simp [Protocol.Payload.bytes]) (by simp) hd
  have hbuffer : payload.bytes.drop 28 = payload.buffer := by
    have hsplit : payload.bytes = (encode 8 payload.magic ++ (encode 4 payload.cmd ++
        (encode 4 payload.targetUid ++ (encode 4 payload.status ++ (encode 4 payload.arg1 ++
          encode 4 payload.dataSize))))) ++ payload.buffer := by
      simp [Protocol.Payload.bytes]
    rw [hsplit, List.drop_left' (by simp)]
  simp only [readPayload, hmagic, hcmd, huid, hstatus, harg, hsize, hbuffer]

section

variable {α σ : Type} {format : RecordFormat} {exec : Record → σ → Int32 × σ} {walk : Walk σ}

/-- The records one after the other, with the result of each. -/
def runAll (exec : Record → σ → Int32 × σ) : List Record → σ → List (Record × Int32) × σ
  | [], state => ([], state)
  | record :: rest, state =>
    let result := exec record state
    let more := runAll exec rest result.2
    ((record, result.1) :: more.1, more.2)

/-- The records follow each other without gaps from `start` to `stop`. -/
def Packed (headerLen : Nat) : Nat → List Record → Nat → Prop
  | start, [], stop => start = stop
  | start, record :: rest, stop =>
    record.offset = start ∧ Packed headerLen (start + headerLen + record.size) rest stop

/-- The kernel reads an encoded item as a record, whatever surrounds it. -/
structure Encodes (format : RecordFormat) (enc : α → Bytes) (record : Nat → α → Record)
    (item : α) : Prop where
  header : ∀ before after : Bytes,
    format.header (before ++ (enc item ++ after)) before.length = record before.length item
  offset : ∀ start, (record start item).offset = start
  length : ∀ start, format.headerLen + (record start item).size = (enc item).length
  accepted : ∀ start, format.refused (record start item) = false

def recordsFrom (enc : α → Bytes) (record : Nat → α → Record) : Nat → List α → List Record
  | _, [] => []
  | start, item :: rest => record start item :: recordsFrom enc record (start + (enc item).length) rest

def Walk.step (exec : Record → σ → Int32 × σ) (headerLen : Nat) (walk : Walk σ) (record : Record) : Walk σ :=
  { walk with reads := walk.reads ++ [(walk.cursor, walk.cursor + headerLen)] }.execute exec headerLen record

@[simp] theorem note_cursor (err : Int32) (offset : Nat) : (walk.note err offset).cursor = walk.cursor := by
  unfold Walk.note
  split <;> rfl

@[simp] theorem note_executed (err : Int32) (offset : Nat) :
    (walk.note err offset).executed = walk.executed := by
  unfold Walk.note
  split <;> rfl

@[simp] theorem note_reads (err : Int32) (offset : Nat) : (walk.note err offset).reads = walk.reads := by
  unfold Walk.note
  split <;> rfl

@[simp] theorem step_cursor (headerLen : Nat) (record : Record) :
    (walk.step exec headerLen record).cursor = walk.cursor + headerLen + record.size := by
  simp [Walk.step, Walk.execute]

variable {enc : α → Bytes} {record : Nat → α → Record} {items : List α}

theorem packed_recordsFrom (h : ∀ item ∈ items, Encodes format enc record item) (start : Nat) :
    Packed format.headerLen start (recordsFrom enc record start items)
      (start + (items.flatMap enc).length) := by
  induction items generalizing start with
  | nil => rfl
  | cons item rest ih =>
    have hitem := h item List.mem_cons_self
    have hnext := ih (fun x hx => h x (List.mem_cons_of_mem _ hx)) (start + (enc item).length)
    refine ⟨hitem.offset start, ?_⟩
    have hlen := hitem.length start
    rw [Nat.add_assoc, hlen]
    simpa [Nat.add_assoc] using hnext

/-- On a buffer of encoded items the loop makes one round for each of them. -/
theorem walkRecords_items (h : ∀ item ∈ items, Encodes format enc record item) {before after : Bytes}
    (hcursor : walk.cursor = before.length) :
    walkRecords format exec (before ++ (items.flatMap enc ++ after))
      (before.length + (items.flatMap enc).length)
      walk = (recordsFrom enc record before.length items).foldl (Walk.step exec format.headerLen) walk := by
  induction items generalizing before walk with
  | nil =>
    have hpos := format.positive
    rw [walkRecords, dif_neg (by simp only [List.flatMap_nil, List.length_nil, hcursor]; omega)]
    rfl
  | cons item rest ih =>
    have hitem := h item List.mem_cons_self
    have hlen := hitem.length before.length
    have hbuffer : before ++ ((item :: rest).flatMap enc ++ after) =
        before ++ (enc item ++ (rest.flatMap enc ++ after)) := by
      simp
    have hend : before.length + ((item :: rest).flatMap enc).length =
        (before ++ enc item).length + (rest.flatMap enc).length := by
      simp [Nat.add_assoc]
    have hmore : format.headerLen ≤ before.length + ((item :: rest).flatMap enc).length - walk.cursor := by
      rw [hend, hcursor, List.length_append]
      omega
    have hheader : format.header (before ++ ((item :: rest).flatMap enc ++ after)) walk.cursor =
        record before.length item := by
      rw [hbuffer, hcursor]
      exact hitem.header before _
    have hfits : ¬ (before.length + ((item :: rest).flatMap enc).length - (walk.cursor + format.headerLen) <
        (record before.length item).size ∨ format.refused (record before.length item) = true) := by
      rw [hitem.accepted, hend, hcursor, List.length_append]
      rintro (hlt | hno)
      · omega
      · cases hno
    have hnext : (walk.step exec format.headerLen (record before.length item)).cursor =
        (before ++ enc item).length := by
      rw [step_cursor, hcursor, List.length_append]
      omega
    have hrest := ih (fun x hx => h x (List.mem_cons_of_mem _ hx)) hnext
    rw [walkRecords, dif_pos hmore]
    simp only [hheader, hfits, if_false]
    rw [hend, recordsFrom, List.foldl_cons]
    have hsame : before ++ ((item :: rest).flatMap enc ++ after) =
        (before ++ enc item) ++ (rest.flatMap enc ++ after) := by
      simp
    have hlength : (before ++ enc item).length = before.length + (enc item).length := List.length_append
    rw [hsame, ← hlength]
    exact hrest

/-- The first failure among results, with the record it belongs to. -/
def firstFailure (results : List (Record × Int32)) : Option (Record × Int32) :=
  results.find? fun result => result.2 ≠ 0

/-- The loop variables say which of the executed records failed first. -/
def Walk.Reports (walk : Walk σ) : Prop :=
  match firstFailure walk.executed with
  | none => walk.firstErr = 0
  | some (record, err) => walk.firstErr = err ∧ walk.errOffset = record.offset

theorem step_reports {record : Record} {headerLen : Nat} (h : walk.Reports) :
    (walk.step exec headerLen record).Reports := by
  have hexec : (walk.step exec headerLen record).executed =
      walk.executed ++ [(record, (exec record walk.state).1)] := by
    simp [Walk.step, Walk.execute]
  unfold Walk.Reports firstFailure at *
  rw [hexec, List.find?_append]
  cases hf : walk.executed.find? fun result => result.2 ≠ 0 with
  | none =>
    rw [hf] at h
    simp only at h
    by_cases herr : (exec record walk.state).1 = 0
    · simp [Walk.step, Walk.execute, Walk.note, h, herr]
    · simp [Walk.step, Walk.execute, Walk.note, h, herr]
  | some result =>
    rw [hf] at h
    have hne : result.2 ≠ 0 := by simpa using List.find?_some hf
    have hkept : walk.firstErr ≠ 0 := by rw [h.1]; exact hne
    simpa [Walk.step, Walk.execute, Walk.note, hkept] using h

/-- A run of the loop executes the records one after the other and reads nothing past their end. -/
theorem foldl_step {records : List Record} {start stop : Nat} {headerLen : Nat}
    (hpacked : Packed headerLen start records stop) (hcursor : walk.cursor = start) (hreports : walk.Reports)
    (hreads : ∀ range ∈ walk.reads, range.2 ≤ start) :
    let final := records.foldl (Walk.step exec headerLen) walk
    final.executed = walk.executed ++ (runAll exec records walk.state).1 ∧
      final.state = (runAll exec records walk.state).2 ∧ final.cursor = stop ∧ final.Reports ∧ start ≤ stop ∧
      ∀ range ∈ final.reads, range.2 ≤ stop := by
  induction records generalizing walk start with
  | nil =>
    obtain rfl : start = stop := hpacked
    exact ⟨by simp [runAll], rfl, hcursor, hreports, le_refl _, hreads⟩
  | cons record rest ih =>
    have hnext : (walk.step exec headerLen record).cursor = start + headerLen + record.size := by
      rw [step_cursor, hcursor]
    have hread : ∀ range ∈ (walk.step exec headerLen record).reads, range.2 ≤ start + headerLen +
        record.size := by
      intro range hr
      simp only [Walk.step, Walk.execute, note_reads, note_cursor, List.mem_append, List.mem_singleton] at hr
      rcases hr with (hr | rfl) | rfl
      · have hle := hreads range hr
        omega
      · show walk.cursor + headerLen ≤ _
        omega
      · show walk.cursor + headerLen + record.size ≤ _
        omega
    obtain ⟨hexec, hstate, hstop, hrep, hle, hall⟩ := ih hpacked.2 hnext (step_reports hreports) hread
    have hone : (walk.step exec headerLen record).executed =
        walk.executed ++ [(record, (exec record walk.state).1)] := by
      simp [Walk.step, Walk.execute]
    refine ⟨?_, hstate, hstop, hrep, by omega, hall⟩
    rw [List.foldl_cons, hexec, hone, List.append_assoc]
    rfl

end

/-- The record of a rule which is packed at an offset. -/
def ruleRecord (uid : UInt32) (offset : Nat) (rule : Protocol.EncodedRule) : Record :=
  ⟨offset, rule.flags.toNat, uid.toNat, rule.virtualPath.length, rule.realPath.length⟩

def delRecord (uid : UInt32) (offset : Nat) (path : Bytes) : Record := ⟨offset, 0, uid.toNat, path.length, 0⟩

theorem encodes_rule {rule : Protocol.EncodedRule} (uid : UInt32) (hv : rule.virtualPath.length < PATH_MAX)
    (hr : rule.realPath.length < PATH_MAX) :
    Encodes ruleFormat (Protocol.EncodedRule.writeRecord uid .hybridMount) (ruleRecord uid) rule := by
  have hv16 : rule.virtualPath.length < 256 ^ 2 := lt_trans hv (by decide)
  have hr16 : rule.realPath.length < 256 ^ 2 := lt_trans hr (by decide)
  constructor
  · intro before after
    let whole := before ++ (rule.writeRecord uid .hybridMount ++ after)
    let paths := rule.virtualPath ++ (rule.realPath ++ after)
    have hflags : readLe whole before.length 4 = rule.flags.toNat :=
      readLe_of_eq before (encode 4 uid.toNat ++ (encode 2 rule.virtualPath.length ++
        (encode 2 rule.realPath.length ++ paths)))
        (by simp [whole, paths, Protocol.EncodedRule.writeRecord, Protocol.writeUidRange]) rfl
          rule.flags.toNat_lt
    have huid : readLe whole (before.length + 4) 4 = uid.toNat :=
      readLe_of_eq (before ++ encode 4 rule.flags.toNat) (encode 2 rule.virtualPath.length ++
        (encode 2 rule.realPath.length ++ paths))
        (by simp [whole, paths, Protocol.EncodedRule.writeRecord, Protocol.writeUidRange]) (by simp) uid.toNat_lt
    have hvLen : readLe whole (before.length + 8) 2 = rule.virtualPath.length :=
      readLe_of_eq (before ++ (encode 4 rule.flags.toNat ++ encode 4 uid.toNat))
        (encode 2 rule.realPath.length ++ paths)
        (by simp [whole, paths, Protocol.EncodedRule.writeRecord, Protocol.writeUidRange]) (by simp) hv16
    have hrLen : readLe whole (before.length + 10) 2 = rule.realPath.length :=
      readLe_of_eq (before ++ (encode 4 rule.flags.toNat ++ (encode 4 uid.toNat ++
        encode 2 rule.virtualPath.length))) paths
        (by simp [whole, paths, Protocol.EncodedRule.writeRecord, Protocol.writeUidRange]) (by simp) hr16
    show Record.mk before.length (readLe whole before.length 4) (readLe whole (before.length + 4) 4)
      (readLe whole (before.length + 8) 2) (readLe whole (before.length + 10) 2) = _
    rw [hflags, huid, hvLen, hrLen]
    rfl
  · intro start
    rfl
  · intro start
    simp only [ruleFormat, ruleRecord, Record.size, Protocol.length_writeRecord,
      Protocol.EncodedRule.recordLen,
      RuleFormat.extraBytes]
    omega
  · intro start
    simp [ruleFormat, ruleRecord, hv, hr]

theorem encodes_del {path : Bytes} (uid : UInt32) (hv : path.length < 256 ^ 2) :
    Encodes delFormat (Protocol.writeDelRecord uid .hybridMount) (delRecord uid) path := by
  constructor
  · intro before after
    let whole := before ++ (Protocol.writeDelRecord uid .hybridMount path ++ after)
    have huid : readLe whole before.length 4 = uid.toNat :=
      readLe_of_eq before (encode 2 path.length ++ (path ++ after))
        (by simp [whole, Protocol.writeDelRecord, Protocol.writeUidRange]) rfl uid.toNat_lt
    have hvLen : readLe whole (before.length + 4) 2 = path.length :=
      readLe_of_eq (before ++ encode 4 uid.toNat) (path ++ after)
        (by simp [whole, Protocol.writeDelRecord, Protocol.writeUidRange]) (by simp) hv
    show Record.mk before.length 0 (readLe whole before.length 4) (readLe whole (before.length + 4) 2) 0 = _
    rw [huid, hvLen]
    rfl
  · intro start
    rfl
  · intro start
    simp only [delFormat, delRecord, Record.size, Protocol.length_writeDelRecord, Protocol.delRecordLen,
      RuleFormat.extraBytes]
    omega
  · intro start
    rfl

/-- A page as the kernel finds it: a fresh request with packed records, each of which
holds its item. -/
structure Carries {α : Type} (cmd : Protocol.NmCommand) (headerLen : Nat) (holds : Bytes → Record → α → Prop)
    (page : Bytes) (records : List Record) (group : List α) : Prop where
  magic : (readPayload page).magic = Protocol.MAGIC
  cmd : (readPayload page).cmd = cmd.code
  fresh : (readPayload page).arg1 = 0
  fits : (readPayload page).dataSize ≤ BUFFER_LEN ∧ (readPayload page).buffer.length = BUFFER_LEN
  packed : Packed headerLen 0 records (readPayload page).dataSize
  holds : List.Forall₂ (holds (readPayload page).buffer) records group

/-- The header and the two paths of a rule stand at the record's offset. -/
def RuleAt (uid : UInt32) (buffer : Bytes) (record : Record) (rule : Protocol.EncodedRule) : Prop :=
  record.flags = rule.flags.toNat ∧ record.uid = uid.toNat ∧ record.vLen = rule.virtualPath.length ∧
    record.rLen = rule.realPath.length ∧
    slice buffer (record.offset + RULE_HEADER_LEN) (record.offset + RULE_HEADER_LEN + record.vLen) =
      some rule.virtualPath ∧
    slice buffer (record.offset + RULE_HEADER_LEN + record.vLen)
      (record.offset + RULE_HEADER_LEN + record.vLen + record.rLen) = some rule.realPath

def PathAt (uid : UInt32) (buffer : Bytes) (record : Record) (path : Bytes) : Prop :=
  record.uid = uid.toNat ∧ record.vLen = path.length ∧
    slice buffer (record.offset + Protocol.DEL_HEADER_LEN)
      (record.offset + Protocol.DEL_HEADER_LEN + record.vLen) = some path

/-- A handler runs every record once and in order, and its reply is taken for a success
only when none of them failed. -/
structure Served {σ : Type} (payload : Protocol.Payload) (silent : σ → Int32) (exec : Record → σ → Int32 × σ)
    (state : σ) (records : List Record) (outcome : Protocol.Payload × Walk σ) : Prop where
  visited : outcome.2.executed.map Prod.fst = records
  executed : outcome.2.executed = (runAll exec records state).1
  state : outcome.2.state = (runAll exec records state).2
  reads : ∀ range ∈ outcome.2.reads, range.2 ≤ payload.dataSize
  reply : match firstFailure outcome.2.executed with
    | none => Protocol.readStatus outcome.1.bytes = .ok (silent outcome.2.state).toInt ∧
        Protocol.readArg1 outcome.1.bytes = .ok payload.dataSize
    | some (record, err) => Protocol.readStatus outcome.1.bytes = .ok err.toInt ∧
        Protocol.readArg1 outcome.1.bytes = .ok record.offset
  accepted : Protocol.ensureConsumed outcome.1.bytes = .ok () ∨
      Protocol.ensureStatusAllowEnoent outcome.1.bytes = .ok () → ∀ result ∈ outcome.2.executed, result.2 = 0

section

variable {α σ : Type} {exec : Record → σ → Int32 × σ}

theorem map_fst_runAll (records : List Record) (state : σ) :
    (runAll exec records state).1.map Prod.fst = records := by
  induction records generalizing state with
  | nil => rfl
  | cons record rest ih => simp [runAll, ih]

theorem toInt32_statusOf (err : Int32) : Protocol.toInt32 (statusOf err % 256 ^ 4) = err.toInt := by
  have hlt : statusOf err < 256 ^ 4 := err.toUInt32.toNat_lt
  have hint : err.toInt = err.toBitVec.toInt := rfl
  rw [Nat.mod_eq_of_lt hlt, hint, BitVec.toInt_eq_toNat_cond, Protocol.toInt32, statusOf]
  have hnat : err.toUInt32.toNat = err.toBitVec.toNat := rfl
  rw [hnat]
  split <;> split <;> omega

/-- A cursor short of the data is refused whatever the status is. -/
theorem refused_of_arg1 {payload : Protocol.Payload} (ha : payload.arg1 < payload.dataSize)
    (hd : payload.dataSize < 256 ^ 4) :
    Protocol.ensureConsumed payload.bytes ≠ .ok () ∧ Protocol.ensureStatusAllowEnoent payload.bytes ≠ .ok () := by
  have harg : payload.arg1 % 256 ^ 4 = payload.arg1 := Nat.mod_eq_of_lt (lt_trans ha hd)
  have hsize : payload.dataSize % 256 ^ 4 = payload.dataSize := Nat.mod_eq_of_lt hd
  have hne : payload.arg1 ≠ payload.dataSize := ha.ne
  have hcursor : ∃ e, Protocol.ensureFullCursor payload.bytes = .error e := by
    simp only [Protocol.ensureFullCursor, Protocol.readArg1_bytes, Protocol.readDataSize_bytes, harg, hsize, bind,
      Except.bind]
    exact ⟨_, if_pos hne⟩
  obtain ⟨e, he⟩ := hcursor
  constructor
  · simp only [Protocol.ensureConsumed, Protocol.readStatus_bytes, bind, Except.bind, he]
    split <;> simp [Protocol.readArg1_bytes]
  · simp only [Protocol.ensureStatusAllowEnoent, bind, Except.bind, he]
    split <;> simp

theorem offset_lt_of_packed {headerLen start stop : Nat} {records : List Record} (hpos : 0 < headerLen)
    (h : Packed headerLen start records stop) : start ≤ stop ∧ ∀ record ∈ records, record.offset < stop := by
  induction records generalizing start with
  | nil =>
    obtain rfl : start = stop := h
    simp
  | cons record rest ih =>
    obtain ⟨hoffset, hrest⟩ := h
    obtain ⟨hle, hall⟩ := ih hrest
    refine ⟨by omega, ?_⟩
    intro r hr
    rcases List.mem_cons.mp hr with rfl | hr
    · omega
    · exact hall r hr

variable {cmd : Protocol.NmCommand} {uid : UInt32} {format : RecordFormat} {enc : α → Bytes}
  {record : Nat → α → Record} {group : List α}

theorem readPayload_groupPage (hfit : (group.flatMap enc).length ≤ BUFFER_LEN) :
    readPayload (Protocol.groupPage cmd uid enc group) = Protocol.request cmd uid (group.flatMap enc) := by
  have hcmd : cmd.code < 256 ^ 4 := by cases cmd <;> decide
  have hsize : (group.flatMap enc).length < 256 ^ 4 := lt_of_le_of_lt hfit (by decide)
  exact readPayload_bytes (show Protocol.MAGIC < 256 ^ 8 by decide) hcmd uid.toNat_lt
    (show 2 ^ 32 - 1 < 256 ^ 4 by decide) (show 0 < 256 ^ 4 by decide) hsize

/-- The announced data of a page, from its cursor on, are encoded items and nothing else. -/
structure Tiled (format : RecordFormat) (enc : α → Bytes) (record : Nat → α → Record)
    (payload : Protocol.Payload)
    (items : List α) : Prop where
  encodes : ∀ item ∈ items, Encodes format enc record item
  data : ∃ before after, payload.buffer = before ++ (items.flatMap enc ++ after) ∧
    payload.arg1 = before.length ∧
    payload.dataSize = before.length + (items.flatMap enc).length
  small : payload.dataSize < 256 ^ 4

/-- What the shared handler does on a page of whole records. -/
theorem runBatch_items {payload : Protocol.Payload} {items : List α}
    (h : Tiled format enc record payload items)
    (exec : Record → σ → Int32 × σ) (silent : σ → Int32) (state : σ) :
    Served payload silent exec state (recordsFrom enc record payload.arg1 items)
      (runBatch format exec silent payload state) := by
  obtain ⟨before, after, hbuffer, harg, hdata⟩ := h.data
  have hsmall := h.small
  have hlen : payload.dataSize ≤ payload.buffer.length := by
    rw [hbuffer, hdata]
    simp only [List.length_append]
    omega
  let start : Walk σ := ⟨state, 0, 0, payload.arg1, [], []⟩
  have hloop : walkRecords format exec payload.buffer payload.dataSize start =
      (recordsFrom enc record payload.arg1 items).foldl (Walk.step exec format.headerLen) start := by
    have hwalk := @walkRecords_items α σ format exec start enc record items h.encodes before after harg
    rw [hbuffer, hdata, harg]
    exact hwalk
  have hpacked : Packed format.headerLen payload.arg1 (recordsFrom enc record payload.arg1 items)
      payload.dataSize := by
    have hall := packed_recordsFrom h.encodes payload.arg1
    rwa [harg, ← hdata, ← harg] at hall
  obtain ⟨hexec, hstate, hcursor, hreports, -, hreads⟩ :=
    @foldl_step σ exec start _ payload.arg1 _ _ hpacked rfl rfl (by simp [start])
  rw [← hloop] at hexec hstate hcursor hreports hreads
  generalize hw : walkRecords format exec payload.buffer payload.dataSize start = walk at *
  have hclose : walk.close payload.dataSize = walk := by
    rw [Walk.close, if_neg (not_not.mpr hcursor)]
  have hguard : ¬ (payload.buffer.length < payload.dataSize ∨ payload.dataSize < payload.arg1) := by
    omega
  have hall : walk.executed = (runAll exec (recordsFrom enc record payload.arg1 items) state).1 := by
    rw [hexec]
    rfl
  have hvisited : walk.executed.map Prod.fst = recordsFrom enc record payload.arg1 items := by
    rw [hall, map_fst_runAll]
  have hrun : runBatch format exec silent payload state =
      if walk.firstErr ≠ 0 then (payload.answer (statusOf walk.firstErr) walk.errOffset, walk)
      else (payload.answer (statusOf (silent walk.state)) walk.cursor, walk) := by
    rw [runBatch, if_neg hguard]
    show (if ((walkRecords format exec payload.buffer payload.dataSize start).close
      payload.dataSize).firstErr ≠ 0
      then _ else _) = _
    rw [hw, hclose]
  rw [hrun]
  cases hf : firstFailure walk.executed with
  | none =>
    have hzero : walk.firstErr = 0 := by
      rw [Walk.Reports, hf] at hreports
      exact hreports
    rw [if_neg (not_not.mpr hzero), hcursor]
    refine ⟨hvisited, hall, hstate, hreads, ?_, ?_⟩
    · simp only [hf]
      refine ⟨?_, ?_⟩
      · rw [Protocol.readStatus_bytes]
        exact congrArg Except.ok (toInt32_statusOf _)
      · rw [Protocol.readArg1_bytes]
        exact congrArg Except.ok (Nat.mod_eq_of_lt hsmall)
    · intro _ result hr
      have hnone := List.find?_eq_none.mp hf result hr
      simpa using hnone
  | some failure =>
    obtain ⟨failed, err⟩ := failure
    have hfirst : walk.firstErr = err ∧ walk.errOffset = failed.offset := by
      rw [Walk.Reports, hf] at hreports
      exact hreports
    have herr : err ≠ 0 := by simpa using List.find?_some hf
    have hmem : failed ∈ recordsFrom enc record payload.arg1 items := by
      rw [← hvisited]
      exact List.mem_map.mpr ⟨_, List.mem_of_find?_eq_some hf, rfl⟩
    have hoffset : failed.offset < payload.dataSize := (offset_lt_of_packed format.positive hpacked).2 _ hmem
    rw [if_pos (by rw [hfirst.1]; exact herr), hfirst.1, hfirst.2]
    refine ⟨hvisited, hall, hstate, hreads, ?_, ?_⟩
    · simp only [hf]
      refine ⟨?_, ?_⟩
      · rw [Protocol.readStatus_bytes]
        exact congrArg Except.ok (toInt32_statusOf _)
      · rw [Protocol.readArg1_bytes]
        exact congrArg Except.ok (Nat.mod_eq_of_lt (lt_trans hoffset hsmall))
    · intro haccepted
      have hrefused := @refused_of_arg1 (payload.answer (statusOf err) failed.offset) hoffset hsmall
      rcases haccepted with hok | hok
      · exact absurd hok hrefused.1
      · exact absurd hok hrefused.2

theorem runBatch_groupPage (h : ∀ item ∈ group, Encodes format enc record item)
    (hfit : (group.flatMap enc).length ≤ BUFFER_LEN) (exec : Record → σ → Int32 × σ) (silent : σ → Int32)
    (state : σ) :
    Served (readPayload (Protocol.groupPage cmd uid enc group)) silent exec state
      (recordsFrom enc record 0 group)
      (runBatch format exec silent (readPayload (Protocol.groupPage cmd uid enc group)) state) := by
  rw [readPayload_groupPage hfit]
  have htiled : Tiled format enc record (Protocol.request cmd uid (group.flatMap enc)) group :=
    ⟨h, ⟨[], List.replicate (BUFFER_LEN - (group.flatMap enc).length) 0, rfl, rfl, (Nat.zero_add _).symm⟩,
      lt_of_le_of_lt hfit (by decide)⟩
  exact runBatch_items htiled exec silent state

theorem holds_recordsFrom {holds : Bytes → Record → α → Prop}
    (h : ∀ item ∈ group, ∀ before after : Bytes,
      holds (before ++ (enc item ++ after)) (record before.length item) item)
    (before after : Bytes) :
    List.Forall₂ (holds (before ++ (group.flatMap enc ++ after)))
      (recordsFrom enc record before.length group) group := by
  induction group generalizing before with
  | nil => exact List.Forall₂.nil
  | cons item rest ih =>
    have hbuffer : before ++ ((item :: rest).flatMap enc ++ after) =
        before ++ (enc item ++ (rest.flatMap enc ++ after)) := by
      simp
    have hsame : before ++ (enc item ++ (rest.flatMap enc ++ after)) =
        (before ++ enc item) ++ (rest.flatMap enc ++ after) := by
      simp
    have hrest := ih (fun x hx => h x (List.mem_cons_of_mem _ hx)) (before ++ enc item)
    rw [List.length_append] at hrest
    rw [hbuffer]
    refine List.Forall₂.cons (h item List.mem_cons_self before _) ?_
    rw [hsame]
    exact hrest

theorem ruleAt_record (rule : Protocol.EncodedRule) (before after : Bytes) :
    RuleAt uid (before ++ (rule.writeRecord uid .hybridMount ++ after))
      (ruleRecord uid before.length rule) rule := by
  refine ⟨rfl, rfl, rfl, rfl, ?_, ?_⟩
  · exact slice_of_eq (before ++ Protocol.recordHeader uid .hybridMount rule) (rule.realPath ++ after)
      (by simp [Protocol.writeRecord_eq]) (by simp [ruleRecord, RuleFormat.extraBytes])
      (by simp [ruleRecord, RuleFormat.extraBytes])
  · exact slice_of_eq (before ++ (Protocol.recordHeader uid .hybridMount rule ++ rule.virtualPath)) after
      (by simp [Protocol.writeRecord_eq]) (by simp [ruleRecord, RuleFormat.extraBytes, Nat.add_assoc])
      (by simp [ruleRecord, RuleFormat.extraBytes, Nat.add_assoc])

theorem pathAt_record (path before after : Bytes) :
    PathAt uid (before ++ (Protocol.writeDelRecord uid .hybridMount path ++ after))
      (delRecord uid before.length path)
      path := by
  refine ⟨rfl, rfl, ?_⟩
  exact slice_of_eq (before ++ (encode 4 uid.toNat ++ encode 2 path.length)) after
    (by simp [Protocol.writeDelRecord, Protocol.writeUidRange]) (by simp [delRecord, Protocol.DEL_HEADER_LEN])
    (by simp [delRecord, Protocol.DEL_HEADER_LEN])

theorem length_le_of_mem {item : α} (hfit : (group.flatMap enc).length ≤ BUFFER_LEN) (hi : item ∈ group) :
    (enc item).length ≤ BUFFER_LEN :=
  le_trans (List.sublist_flatten_of_mem (List.mem_map_of_mem hi)).length_le hfit

theorem carries_groupPage {holds : Bytes → Record → α → Prop}
    (h : ∀ item ∈ group, Encodes format enc record item)
    (hholds : ∀ item ∈ group, ∀ before after : Bytes,
      holds (before ++ (enc item ++ after)) (record before.length item) item)
    (hfit : (group.flatMap enc).length ≤ BUFFER_LEN) :
    Carries cmd format.headerLen holds (Protocol.groupPage cmd uid enc group)
      (recordsFrom enc record 0 group) group := by
  have hpage := @readPayload_groupPage α cmd uid enc group hfit
  have hpacked := packed_recordsFrom h 0
  rw [Nat.zero_add] at hpacked
  have hall := holds_recordsFrom hholds [] (List.replicate (BUFFER_LEN - (group.flatMap enc).length) 0)
  refine ⟨by rw [hpage]; rfl, by rw [hpage]; rfl, by rw [hpage]; rfl, ?_, by rw [hpage]; exact hpacked,
    by rw [hpage]; exact hall⟩
  rw [hpage]
  refine ⟨hfit, ?_⟩
  show (group.flatMap enc ++ List.replicate (BUFFER_LEN - (group.flatMap enc).length) 0).length = BUFFER_LEN
  simp only [List.length_append, List.length_replicate]
  omega

end

/-- For every page that the encoder builds, the loop of the kernel visits the encoded
records and nothing else, and an accepted reply means that all of them were executed. -/
theorem batch_agreement (rules : List Protocol.EncodedRule) (paths : List Bytes) (uid : UInt32) :
    (∀ pages, Protocol.buildAddRulePayloadsFor rules uid .hybridMount = .ok pages →
      ∃ groups : List (List Protocol.EncodedRule), groups.flatten = rules ∧ List.Forall₂ (fun page group =>
        ∃ records, Carries .addRule RULE_HEADER_LEN (RuleAt uid) page records group ∧
          ∀ (σ : Type) (addRule : Record → σ → Int32 × σ) (state : σ),
            Served (readPayload page) (fun _ => 0) addRule state records
              (addRules addRule (readPayload page) state))
        pages groups) ∧
    ∀ pages, Protocol.buildDelRulePayloadsFor paths uid .hybridMount = .ok pages →
      ∃ groups : List (List Bytes), groups.flatten = paths ∧ List.Forall₂ (fun page group =>
        ∃ records, Carries .delRule Protocol.DEL_HEADER_LEN (PathAt uid) page records group ∧
          ∀ (σ : Type) (delRule : Record → σ → Int32 × σ) (noVictims : σ → Bool) (state : σ),
            Served (readPayload page) (fun s => if noVictims s then ENOENT else 0) delRule state records
              (delRules delRule noVictims (readPayload page) state)) pages groups := by
  constructor
  · intro pages hpages
    have hsize : ∀ rule : Protocol.EncodedRule, rule.recordLen + RuleFormat.hybridMount.extraBytes =
        (rule.writeRecord uid .hybridMount).length :=
          fun rule => (Protocol.length_writeRecord rule uid _).symm
    obtain ⟨groups, hflat, rfl, hfit⟩ := Protocol.packRecords_pages hsize Protocol.writeRecord_ne_nil hpages
    refine ⟨groups, hflat, List.forall₂_map_left_iff.mpr (List.forall₂_same.mpr fun group hg => ?_)⟩
    have hle := (hfit group hg).2
    have henc : ∀ rule ∈ group, Encodes ruleFormat (Protocol.EncodedRule.writeRecord uid .hybridMount)
        (ruleRecord uid) rule := by
      intro rule hr
      have hlen := length_le_of_mem hle hr
      simp only [Protocol.length_writeRecord, Protocol.EncodedRule.recordLen, RULE_HEADER_LEN, BUFFER_LEN] at hlen
      exact encodes_rule uid (by simp only [PATH_MAX]; omega) (by simp only [PATH_MAX]; omega)
    exact ⟨_, carries_groupPage henc (fun rule _ => ruleAt_record rule) hle,
      fun σ addRule state => runBatch_groupPage henc hle addRule _ state⟩
  · intro pages hpages
    have hsize : ∀ path : Bytes, Protocol.delRecordLen .hybridMount path =
        (Protocol.writeDelRecord uid .hybridMount path).length :=
          fun path => (Protocol.length_writeDelRecord path uid _).symm
    have hne : ∀ path : Bytes, Protocol.writeDelRecord uid .hybridMount path ≠ [] := by
      intro path hnil
      have hlen := Protocol.length_writeDelRecord path uid .hybridMount
      rw [hnil, List.length_nil, Protocol.delRecordLen, Protocol.DEL_HEADER_LEN] at hlen
      omega
    obtain ⟨groups, hflat, rfl, hfit⟩ := Protocol.packRecords_pages hsize hne hpages
    refine ⟨groups, hflat, List.forall₂_map_left_iff.mpr (List.forall₂_same.mpr fun group hg => ?_)⟩
    have hle := (hfit group hg).2
    have henc : ∀ path ∈ group, Encodes delFormat (Protocol.writeDelRecord uid .hybridMount)
        (delRecord uid) path := by
      intro path hp
      have hlen := length_le_of_mem hle hp
      simp only [Protocol.length_writeDelRecord, Protocol.delRecordLen, BUFFER_LEN] at hlen
      exact encodes_del uid (by omega)
    exact ⟨_, carries_groupPage henc (fun path _ => pathAt_record path) hle,
      fun σ delRule noVictims state => runBatch_groupPage henc hle delRule _ state⟩

end HybridMount.Vfs
