import HybridMount.Protocol

/-! What is packed into pages of rule records comes back from the parser. -/

namespace HybridMount

open LittleEndian

@[simp] theorem length_utf8 (text : String) : (utf8 text).length = text.utf8ByteSize := by
  simp [utf8]

theorem fromUtf8Lossy_utf8 (text : String) : fromUtf8Lossy (utf8 text) = text := by
  have hvalid : String.fromUTF8? ⟨(utf8 text).toArray⟩ = some text := by
    simp only [utf8, Array.toArray_toList]
    show String.fromUTF8? text.toByteArray = some text
    rw [String.fromUTF8?, dif_pos text.isValidUTF8]
    rfl
  simp [fromUtf8Lossy, hvalid]

namespace Protocol

theorem field_of_slice {bytes raw : Bytes} {width offset : Nat} {name : String}
    (h : slice bytes offset (offset + width) = some raw) : field bytes width offset name = .ok raw := by
  simp [field, h]

section

variable (payload : Payload)

theorem readStatus_bytes : readStatus payload.bytes = .ok (toInt32 (payload.status % 256 ^ 4)) := by
  have hs : slice payload.bytes 16 (16 + 4) = some (encode 4 payload.status) :=
    slice_of_eq (encode 8 payload.magic ++ (encode 4 payload.cmd ++ encode 4 payload.targetUid))
      (encode 4 payload.arg1 ++ (encode 4 payload.dataSize ++ payload.buffer))
      (by simp [Payload.bytes]) (by simp) (by simp)
  rw [readStatus, field_of_slice hs]
  simp only [bind, Except.bind, pure, Except.pure, decode_encode]

theorem readArg1_bytes : readArg1 payload.bytes = .ok (payload.arg1 % 256 ^ 4) := by
  have hs : slice payload.bytes 20 (20 + 4) = some (encode 4 payload.arg1) :=
    slice_of_eq (encode 8 payload.magic ++ (encode 4 payload.cmd ++ (encode 4 payload.targetUid ++
        encode 4 payload.status)))
      (encode 4 payload.dataSize ++ payload.buffer) (by simp [Payload.bytes]) (by simp) (by simp)
  rw [readArg1, field_of_slice hs]
  simp only [bind, Except.bind, pure, Except.pure, decode_encode]

theorem readDataSize_bytes : readDataSize payload.bytes = .ok (payload.dataSize % 256 ^ 4) := by
  have hs : slice payload.bytes 24 (24 + 4) = some (encode 4 payload.dataSize) :=
    slice_of_eq (encode 8 payload.magic ++ (encode 4 payload.cmd ++ (encode 4 payload.targetUid ++
        (encode 4 payload.status ++ encode 4 payload.arg1))))
      payload.buffer (by simp [Payload.bytes]) (by simp) (by simp)
  rw [readDataSize, field_of_slice hs]
  simp only [bind, Except.bind, pure, Except.pure, decode_encode]

variable {payload}

theorem responseBody_bytes (hsize : payload.dataSize ≤ BUFFER_LEN)
    (hbuffer : payload.buffer.length = BUFFER_LEN) :
    responseBody payload.bytes = .ok (payload.buffer.take payload.dataSize) := by
  have hmod : payload.dataSize % 256 ^ 4 = payload.dataSize := by
    simp only [BUFFER_LEN] at hsize
    omega
  have hs : slice payload.bytes 28 (28 + payload.dataSize) = some (payload.buffer.take payload.dataSize) :=
    slice_of_eq (encode 8 payload.magic ++ (encode 4 payload.cmd ++ (encode 4 payload.targetUid ++
        (encode 4 payload.status ++ (encode 4 payload.arg1 ++ encode 4 payload.dataSize)))))
      (payload.buffer.drop payload.dataSize) (by simp [Payload.bytes]) (by simp)
      (by simp [List.length_take, hbuffer, hsize])
  have hno : ¬ payload.dataSize > BUFFER_LEN := Nat.not_lt.mpr hsize
  simp only [responseBody, readDataSize_bytes, hmod, bind, Except.bind, hno, if_false, hs]

end

@[simp] theorem length_writeUidRange (format : RuleFormat) (uid : UInt32) :
    (writeUidRange format uid).length = format.extraBytes := by
  cases format <;> simp [writeUidRange, RuleFormat.extraBytes]

@[simp] theorem length_writeRecord (rule : EncodedRule) (uid : UInt32) (format : RuleFormat) :
    (rule.writeRecord uid format).length = rule.recordLen + format.extraBytes := by
  simp only [EncodedRule.writeRecord, EncodedRule.recordLen, RULE_HEADER_LEN, List.length_append,
    length_encode,
    length_writeUidRange]
  omega

@[simp] theorem length_writeDelRecord (path : Bytes) (uid : UInt32) (format : RuleFormat) :
    (writeDelRecord uid format path).length = delRecordLen format path := by
  simp only [writeDelRecord, delRecordLen, DEL_HEADER_LEN, List.length_append, length_encode,
    length_writeUidRange]
  omega

/-- The record without its paths. -/
def recordHeader (uid : UInt32) (format : RuleFormat) (rule : EncodedRule) : Bytes :=
  encode 4 rule.flags.toNat ++ (encode 4 uid.toNat ++ (writeUidRange format uid ++
    (encode 2 rule.virtualPath.length ++ encode 2 rule.realPath.length)))

section

variable {uid : UInt32} {format : RuleFormat} {rule : EncodedRule}

theorem writeRecord_eq : rule.writeRecord uid format =
    recordHeader uid format rule ++ (rule.virtualPath ++ rule.realPath) := by
  simp [EncodedRule.writeRecord, recordHeader]

@[simp] theorem length_recordHeader :
    (recordHeader uid format rule).length = RULE_HEADER_LEN + format.extraBytes := by
  simp only [recordHeader, RULE_HEADER_LEN, List.length_append, length_encode, length_writeUidRange]
  omega

theorem header_flags :
    field (recordHeader uid format rule) 4 0 "rule flags" = .ok (encode 4 rule.flags.toNat) :=
  field_of_slice (slice_of_eq [] _ rfl rfl (by simp))

theorem header_uid : field (recordHeader uid format rule) 4 4 "rule uid" = .ok (encode 4 uid.toNat) :=
  field_of_slice (slice_of_eq (encode 4 rule.flags.toNat) _ rfl (by simp) (by simp))

theorem header_vLen : field (recordHeader uid format rule) 2 (8 + format.extraBytes) "rule v_len" =
    .ok (encode 2 rule.virtualPath.length) := by
  refine field_of_slice (slice_of_eq
    (encode 4 rule.flags.toNat ++ (encode 4 uid.toNat ++ writeUidRange format uid))
    (encode 2 rule.realPath.length) (by simp [recordHeader]) ?_ ?_)
  · simp only [List.length_append, length_encode, length_writeUidRange]
    omega
  · simp only [List.length_append, length_encode, length_writeUidRange]
    omega

theorem header_rLen : field (recordHeader uid format rule) 2 (10 + format.extraBytes) "rule r_len" =
    .ok (encode 2 rule.realPath.length) := by
  refine field_of_slice (slice_of_eq (encode 4 rule.flags.toNat ++ (encode 4 uid.toNat ++
    (writeUidRange format uid ++ encode 2 rule.virtualPath.length))) [] (by simp [recordHeader]) ?_ ?_)
  · simp only [List.length_append, length_encode, length_writeUidRange]
    omega
  · simp only [List.length_append, length_encode, length_writeUidRange]
    omega

/-- What is written for one uid is never taken for a range. -/
theorem ranged_recordHeader : ranged format (recordHeader uid format rule) uid.toNat = .ok false := by
  by_cases hf : format = .nomount22
  · subst hf
    have hend : field (recordHeader uid .nomount22 rule) 4 8 "rule uid_end" = .ok (encode 4 uid.toNat) :=
      field_of_slice (slice_of_eq (encode 4 rule.flags.toNat ++ encode 4 uid.toNat) (List.replicate 8 0 ++
        (encode 2 rule.virtualPath.length ++ encode 2 rule.realPath.length))
        (by simp [recordHeader, writeUidRange]) (by simp) (by simp))
    have hzero : slice (recordHeader uid .nomount22 rule) 12 20 = some (List.replicate 8 0) :=
      slice_of_eq (encode 4 rule.flags.toNat ++ (encode 4 uid.toNat ++ encode 4 uid.toNat))
        (encode 2 rule.virtualPath.length ++ encode 2 rule.realPath.length)
        (by simp [recordHeader, writeUidRange]) (by simp) (by simp)
    have huid : decode (encode 4 uid.toNat) = uid.toNat := decode_encode_of_lt uid.toNat_lt
    simp [ranged, hend, hzero, huid, bind, Except.bind, pure, Except.pure]
  · simp [ranged, hf, pure, Except.pure]

/-- What the parser reports for a record. -/
def EncodedRule.listed (uid : UInt32) (rule : EncodedRule) : ListedRule :=
  ⟨rule.flags, uid, fromUtf8Lossy rule.virtualPath, fromUtf8Lossy rule.realPath⟩

/-- Records of any uids one after the other. -/
theorem parseRecords_mixed {rules : List (UInt32 × EncodedRule)}
    (hv : ∀ x ∈ rules, x.2.virtualPath.length < 256 ^ 2 ∧ x.2.realPath.length < 256 ^ 2) (before : Bytes) :
    parseRecords format (before ++ rules.flatMap fun x => x.2.writeRecord x.1 format) before.length =
      .ok (rules.map fun x => x.2.listed x.1) := by
  induction rules generalizing before with
  | nil =>
    rw [parseRecords]
    simp
  | cons x rest ih =>
    obtain ⟨uid, rule⟩ := x
    obtain ⟨hvl, hrl⟩ := hv (uid, rule) List.mem_cons_self
    simp only at hvl hrl
    have hnext := ih (fun r hr => hv r (List.mem_cons_of_mem _ hr)) (before ++ rule.writeRecord uid format)
    have hbody : before ++ ((uid, rule) :: rest).flatMap (fun x => x.2.writeRecord x.1 format) =
        before ++ (recordHeader uid format rule ++ (rule.virtualPath ++ rule.realPath ++
          rest.flatMap fun x => x.2.writeRecord x.1 format)) := by
      simp [writeRecord_eq]
    have hlen : before.length <
        (before ++ ((uid, rule) :: rest).flatMap fun x => x.2.writeRecord x.1 format).length := by
      rw [hbody]
      simp only [List.length_append, length_recordHeader, RULE_HEADER_LEN]
      omega
    have hheader := slice_of_eq before _ hbody rfl rfl
    rw [length_recordHeader] at hheader
    have hpaths : slice (before ++ ((uid, rule) :: rest).flatMap fun x => x.2.writeRecord x.1 format)
        (before.length + (RULE_HEADER_LEN + format.extraBytes))
        (before.length + (RULE_HEADER_LEN + format.extraBytes) + rule.virtualPath.length +
          rule.realPath.length) =
          some (rule.virtualPath ++ rule.realPath) := by
      refine slice_of_eq (before ++ recordHeader uid format rule)
        (rest.flatMap fun x => x.2.writeRecord x.1 format) (by simp [writeRecord_eq]) (by simp) ?_
      simp only [List.length_append, length_recordHeader]
      omega
    have hrest : parseRecords format
        (before ++ ((uid, rule) :: rest).flatMap fun x => x.2.writeRecord x.1 format)
        (before.length + (RULE_HEADER_LEN + format.extraBytes) + rule.virtualPath.length +
          rule.realPath.length) =
          .ok (rest.map fun x => x.2.listed x.1) := by
      rw [← hnext]
      congr 1
      · simp
      · simp only [List.length_append, length_writeRecord, EncodedRule.recordLen]
        omega
    have hflags : decode (encode 4 rule.flags.toNat) = rule.flags.toNat :=
      decode_encode_of_lt rule.flags.toNat_lt
    have huid : decode (encode 4 uid.toNat) = uid.toNat := decode_encode_of_lt uid.toNat_lt
    rw [parseRecords, if_pos hlen, hheader]
    simp only [header_flags, header_uid, header_vLen, header_rLen, decode_encode_of_lt hvl,
      decode_encode_of_lt hrl,
      hflags, huid, hpaths, ranged_recordHeader, hrest, bind, Except.bind, pure, Except.pure]
    simp [EncodedRule.listed]

theorem parseRecords_records {rules : List EncodedRule}
    (hv : ∀ rule ∈ rules, rule.virtualPath.length < 256 ^ 2 ∧ rule.realPath.length < 256 ^ 2)
    (before : Bytes) :
    parseRecords format (before ++ rules.flatMap (EncodedRule.writeRecord uid format)) before.length =
      .ok (rules.map (EncodedRule.listed uid)) := by
  have hmixed := @parseRecords_mixed format (rules.map (Prod.mk uid)) (by simpa using hv) before
  simpa [List.flatMap_map, Function.comp_def] using hmixed

end

section

variable {α : Type} {cmd : NmCommand} {uid : UInt32} {check : α → Except Error Unit} {size : α → Nat}
  {record : α → Bytes} {items : List α} {pages : List Bytes}

/-- The request page for a group of records. -/
def groupPage (cmd : NmCommand) (uid : UInt32) (record : α → Bytes) (group : List α) : Bytes :=
  (request cmd uid (group.flatMap record)).bytes

theorem buildPayload_eq_ok {buffer : Bytes} (h : buffer.length ≤ BUFFER_LEN) :
    buildPayload cmd uid buffer = .ok (request cmd uid buffer).bytes := by
  rw [buildPayload, if_neg (Nat.not_lt.mpr h)]

/-- Packing fails exactly on an item which is refused or fits no page. -/
theorem packRecords_error_iff (hsize : ∀ item, size item = (record item).length) {buffer : Bytes}
    (hb : buffer.length ≤ BUFFER_LEN) :
    (∃ e, packRecords cmd uid check size record buffer items = .error e) ↔
      ∃ item ∈ items, check item ≠ .ok () ∨ BUFFER_LEN < size item := by
  induction items generalizing buffer with
  | nil =>
    by_cases hnil : buffer = []
    · simp [packRecords, hnil]
    · simp [packRecords, hnil, buildPayload_eq_ok hb, bind, Except.bind, pure, Except.pure]
  | cons item rest ih =>
    cases hc : check item with
    | error e => simp [packRecords, hc, bind, Except.bind]
    | ok u =>
      by_cases hlong : BUFFER_LEN < size item
      · simp [packRecords, hc, hlong, bind, Except.bind]
      · have hsplit : (∃ x ∈ item :: rest, check x ≠ .ok () ∨ BUFFER_LEN < size x) ↔
            ∃ x ∈ rest, check x ≠ .ok () ∨ BUFFER_LEN < size x := by
          simp [hc, hlong]
        rw [hsplit]
        by_cases hfull : BUFFER_LEN < buffer.length + size item
        · have hrec : (record item).length ≤ BUFFER_LEN := by
            rw [← hsize]
            omega
          rw [← ih hrec]
          simp only [packRecords, hc, bind, Except.bind, hlong, if_false, hfull, if_true,
            buildPayload_eq_ok hb]
          cases packRecords cmd uid check size record (record item) rest <;> simp [pure, Except.pure]
        · have happ : (buffer ++ record item).length ≤ BUFFER_LEN := by
            rw [List.length_append, ← hsize]
            omega
          rw [← ih happ]
          simp only [packRecords, hc, bind, Except.bind, hlong, if_false, hfull]

/-- The pages hold the items in order; the first one completes what is in the buffer. -/
theorem packRecords_groups (hsize : ∀ item, size item = (record item).length)
    (hpos : ∀ item, record item ≠ [])
    {buffer : Bytes} (hb : buffer.length ≤ BUFFER_LEN)
    (h : packRecords cmd uid check size record buffer items = .ok pages) :
    ∃ head rest, items = head ++ rest.flatten ∧ (head = [] → buffer = [] → rest = []) ∧
      (buffer ++ head.flatMap record).length ≤ BUFFER_LEN ∧
      (∀ group ∈ rest, group ≠ [] ∧ (group.flatMap record).length ≤ BUFFER_LEN) ∧
      pages = (if buffer ++ head.flatMap record = [] then [] else
        [(request cmd uid (buffer ++ head.flatMap record)).bytes]) ++
          rest.map (groupPage cmd uid record) := by
  induction items generalizing buffer pages with
  | nil =>
    refine ⟨[], [], rfl, fun _ _ => rfl, by simpa using hb, by simp, ?_⟩
    by_cases hnil : buffer = []
    · simp only [packRecords, hnil, if_true] at h
      cases h
      simp [hnil]
    · simp only [packRecords, hnil, if_false, buildPayload_eq_ok hb, bind, Except.bind, pure, Except.pure] at h
      cases h
      simp [hnil]
  | cons item rest ih =>
    cases hc : check item with
    | error e => simp [packRecords, hc, bind, Except.bind] at h
    | ok u =>
      by_cases hlong : BUFFER_LEN < size item
      · simp [packRecords, hc, hlong, bind, Except.bind] at h
      · by_cases hfull : BUFFER_LEN < buffer.length + size item
        · have hrec : (record item).length ≤ BUFFER_LEN := by
            rw [← hsize]
            omega
          have hne : buffer ≠ [] := by
            rintro rfl
            simp only [List.length_nil] at hfull
            omega
          simp only [packRecords, hc, bind, Except.bind, hlong, if_false, hfull, if_true,
            buildPayload_eq_ok hb] at h
          cases hp : packRecords cmd uid check size record (record item) rest with
          | error e =>
            rw [hp] at h
            cases h
          | ok more =>
            rw [hp] at h
            cases h
            obtain ⟨head, tail, hitems, -, hfit, htail, hpages⟩ := ih hrec hp
            refine ⟨[], (item :: head) :: tail, by simp [hitems], fun _ hnil => absurd hnil hne,
              by simpa using hb, ?_, ?_⟩
            · intro group hg
              rcases List.mem_cons.mp hg with rfl | hg
              · exact ⟨List.cons_ne_nil _ _, by simpa using hfit⟩
              · exact htail group hg
            · simp [hpages, hne, hpos item, groupPage]
        · have happ : (buffer ++ record item).length ≤ BUFFER_LEN := by
            rw [List.length_append, ← hsize]
            omega
          simp only [packRecords, hc, bind, Except.bind, hlong, if_false, hfull] at h
          obtain ⟨head, tail, hitems, -, hfit, htail, hpages⟩ := ih happ h
          refine ⟨item :: head, tail, by simp [hitems], fun hnil => absurd hnil (List.cons_ne_nil _ _),
            by simpa using hfit, htail, ?_⟩
          simpa using hpages

/-- Starting from an empty buffer, every page holds a group of whole records. -/
theorem packRecords_pages (hsize : ∀ item, size item = (record item).length) (hpos : ∀ item, record item ≠ [])
    (h : packRecords cmd uid check size record [] items = .ok pages) :
    ∃ groups : List (List α), groups.flatten = items ∧ pages = groups.map (groupPage cmd uid record) ∧
      ∀ group ∈ groups, group.flatMap record ≠ [] ∧ (group.flatMap record).length ≤ BUFFER_LEN := by
  have hzero : ([] : Bytes).length ≤ BUFFER_LEN := Nat.zero_le _
  obtain ⟨head, rest, hitems, hnone, hfit, hrest, hpages⟩ := packRecords_groups hsize hpos hzero h
  have hfull : ∀ group : List α, group ≠ [] → group.flatMap record ≠ [] := by
    intro group hg
    obtain ⟨item, hi⟩ := List.exists_mem_of_ne_nil group hg
    intro hnil
    exact hpos item (List.flatMap_eq_nil_iff.mp hnil item hi)
  by_cases hhead : head = []
  · subst hhead
    rw [hnone rfl rfl] at hitems hpages
    exact ⟨[], hitems.symm, by simpa using hpages, by simp⟩
  · refine ⟨head :: rest, by simp [hitems], ?_, ?_⟩
    · simpa [hfull head hhead, groupPage] using hpages
    · intro group hg
      rcases List.mem_cons.mp hg with rfl | hg
      · exact ⟨hfull _ hhead, by simpa using hfit⟩
      · exact ⟨hfull group (hrest group hg).1, (hrest group hg).2⟩

end

section

variable {rules : List EncodedRule} {uid : UInt32} {format : RuleFormat} {pages : List Bytes}

theorem writeRecord_ne_nil (rule : EncodedRule) : rule.writeRecord uid format ≠ [] := by
  intro hnil
  have hlen := length_writeRecord rule uid format
  rw [hnil, List.length_nil, EncodedRule.recordLen, RULE_HEADER_LEN] at hlen
  omega

theorem checkOpaque_ne_ok {rule : EncodedRule} :
    checkOpaque format rule ≠ .ok () ↔ format ≠ .hybridMount ∧ rule.flags &&& FLAG_OPAQUE ≠ 0 := by
  unfold checkOpaque
  split <;> simp_all

/-- Overwrite the status of a page. -/
def withStatus (page : Bytes) (status : Nat) : Bytes := page.take 16 ++ (encode 4 status ++ page.drop 20)

theorem withStatus_bytes (payload : Payload) (status : Nat) :
    withStatus payload.bytes status = (payload.answer status payload.arg1).bytes := by
  have hbytes : ∀ payload : Payload, payload.bytes = (encode 8 payload.magic ++ (encode 4 payload.cmd ++
      encode 4 payload.targetUid)) ++ (encode 4 payload.status ++ (encode 4 payload.arg1 ++
        (encode 4 payload.dataSize ++ payload.buffer))) := by
    intro payload
    simp [Payload.bytes]
  have htake : ∀ a b : Bytes, a.length = 16 → (a ++ b).take 16 = a := fun a b ha => by simp [ha]
  have hdrop : ∀ a b c : Bytes, a.length = 16 → b.length = 4 → (a ++ (b ++ c)).drop 20 = c := by
    intro a b c ha hb
    rw [← List.append_assoc, List.drop_left' (by simp [ha, hb])]
  rw [withStatus, hbytes, htake _ _ (by simp), hdrop _ _ _ (by simp) (by simp), hbytes]
  rfl

theorem responseBody_answer {cmd : NmCommand} {body : Bytes} (h : body.length ≤ BUFFER_LEN)
    (status arg1 : Nat) :
    responseBody ((request cmd uid body).answer status arg1).bytes = .ok body := by
  have hlen : (body ++ List.replicate (BUFFER_LEN - body.length) (0 : UInt8)).length = BUFFER_LEN := by
    simp only [List.length_append, List.length_replicate]
    omega
  have hbody := @responseBody_bytes ((request cmd uid body).answer status arg1) h hlen
  simpa [request, Payload.answer] using hbody

theorem responseBody_groupPage {group : List EncodedRule} {cmd : NmCommand}
    (hfit : (group.flatMap (EncodedRule.writeRecord uid format)).length ≤ BUFFER_LEN) :
    responseBody (groupPage cmd uid (EncodedRule.writeRecord uid format) group) =
      .ok (group.flatMap (EncodedRule.writeRecord uid format)) :=
  responseBody_answer hfit (2 ^ 32 - 1) 0

/-- A page of rule records, taken as a successful listing, is parsed into its rules. -/
theorem parseListFor_groupPage {group : List EncodedRule}
    (hfit : (group.flatMap (EncodedRule.writeRecord uid format)).length ≤ BUFFER_LEN) :
    parseListFor (withStatus (groupPage .addRule uid (EncodedRule.writeRecord uid format) group) 0) format =
      .ok (group.map (EncodedRule.listed uid), 0) := by
  have hshort : ∀ rule ∈ group, rule.virtualPath.length < 256 ^ 2 ∧ rule.realPath.length < 256 ^ 2 := by
    intro rule hr
    have hle : (rule.writeRecord uid format).length ≤
        (group.flatMap (EncodedRule.writeRecord uid format)).length :=
      (List.sublist_flatten_of_mem (List.mem_map_of_mem hr)).length_le
    rw [length_writeRecord, EncodedRule.recordLen] at hle
    simp only [BUFFER_LEN] at hfit
    omega
  have hparse : parseRecords format (group.flatMap (EncodedRule.writeRecord uid format)) 0 =
      .ok (group.map (EncodedRule.listed uid)) := parseRecords_records hshort []
  rw [groupPage, withStatus_bytes]
  have hstatus : readStatus
      ((request .addRule uid (group.flatMap (EncodedRule.writeRecord uid format))).answer 0 0).bytes = .ok 0 :=
    readStatus_bytes _
  have harg := readArg1_bytes
    ((request .addRule uid (group.flatMap (EncodedRule.writeRecord uid format))).answer 0 0)
  have hbody := @responseBody_answer uid .addRule _ hfit 0 0
  have hensure : ensureStatus
      ((request .addRule uid (group.flatMap (EncodedRule.writeRecord uid format))).answer 0 0).bytes =
        .ok () := by
    simp [ensureStatus, ensureStatusAllowing, hstatus, bind, Except.bind]
  show parseListFor ((request .addRule uid (group.flatMap (EncodedRule.writeRecord uid format))).answer 0 0).bytes
    format = _
  simp only [parseListFor, hensure, hbody, hparse, harg, bind, Except.bind, pure, Except.pure]
  rfl

end

end Protocol

/-- A rule with its strings encoded. -/
def EncodedRule.wire (rule : EncodedRule) : Protocol.EncodedRule :=
    ⟨rule.flags, utf8 rule.virtualPath, utf8 rule.realPath⟩

@[simp] theorem recordLen_wire (rule : EncodedRule) : rule.wire.recordLen = rule.recordLen := by
  simp [EncodedRule.wire, Protocol.EncodedRule.recordLen, EncodedRule.recordLen]

namespace Protocol

theorem exists_flatten_of_map {α β : Type} {f : α → β} {groups : List (List β)} {items : List α}
    (h : groups.flatten = items.map f) :
    ∃ split : List (List α), split.flatten = items ∧ groups = split.map (List.map f) := by
  induction groups generalizing items with
  | nil => exact ⟨[], by simpa using h, rfl⟩
  | cons group rest ih =>
    rw [List.flatten_cons] at h
    obtain ⟨head, tail, rfl, hhead, htail⟩ := List.append_eq_map_iff.mp h
    obtain ⟨split, rfl, rfl⟩ := ih htail.symm
    exact ⟨head :: split, rfl, by simp [hhead]⟩

/-- Packing fails exactly on a rule that no page or no provider takes; otherwise the
pages hold whole records in order, and reading them as listings gives the rules back. -/
theorem listing_round_trip (rules : List HybridMount.EncodedRule) (uid : UInt32) (format : RuleFormat) :
    ((∃ e, buildAddRulePayloadsFor (rules.map EncodedRule.wire) uid format = .error e) ↔
      ∃ rule ∈ rules, BUFFER_LEN < rule.recordLen + format.extraBytes ∨
        format ≠ .hybridMount ∧ rule.flags &&& FLAG_OPAQUE ≠ 0) ∧
    ∀ pages, buildAddRulePayloadsFor (rules.map EncodedRule.wire) uid format = .ok pages →
      ∃ groups : List (List HybridMount.EncodedRule), groups.flatten = rules ∧
        List.Forall₂ (fun page group => ∃ body, responseBody page = .ok body ∧ body ≠ [] ∧
          body.length ≤ BUFFER_LEN ∧
          body = group.flatMap (fun rule => rule.wire.writeRecord uid format) ∧
          parseListFor (withStatus page 0) format =
            .ok (group.map fun rule => ⟨rule.flags, uid, rule.virtualPath, rule.realPath⟩, 0)) pages groups := by
  have hsize : ∀ rule : EncodedRule, rule.recordLen + format.extraBytes =
      (rule.writeRecord uid format).length :=
    fun rule => (length_writeRecord rule uid format).symm
  constructor
  · rw [buildAddRulePayloadsFor, packRecords_error_iff hsize (Nat.zero_le _)]
    simp only [List.mem_map, exists_exists_and_eq_and, recordLen_wire, checkOpaque_ne_ok]
    exact exists_congr fun rule => and_congr_right fun _ => or_comm
  · intro pages hpages
    obtain ⟨groups, hflat, rfl, hfit⟩ := packRecords_pages hsize writeRecord_ne_nil hpages
    -- The groups are lists of encoded rules; each of them comes from a rule with strings.
    obtain ⟨split, hsplit, rfl⟩ := exists_flatten_of_map hflat
    refine ⟨split, hsplit, ?_⟩
    rw [List.map_map, List.forall₂_map_left_iff]
    refine List.forall₂_same.mpr fun group hg => ?_
    obtain ⟨hne, hle⟩ := hfit _ (List.mem_map_of_mem hg)
    have hbody : (group.map EncodedRule.wire).flatMap (EncodedRule.writeRecord uid format) =
        group.flatMap fun rule => rule.wire.writeRecord uid format := List.flatMap_map _ _ _
    refine ⟨_, responseBody_groupPage hle, hne, hle, hbody, ?_⟩
    have hparse := parseListFor_groupPage hle
    rw [List.map_map] at hparse
    rw [Function.comp_apply, hparse]
    congr 2
    refine List.map_congr_left fun rule _ => ?_
    simp [EncodedRule.listed, EncodedRule.wire, fromUtf8Lossy_utf8]

end Protocol

end HybridMount
