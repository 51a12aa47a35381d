import HybridMount.KernelBounds

/-! Listing the tables of the kernel module page by page. The cursor is an index into
the table, and the kernel answers with the index at which it stopped. -/

namespace HybridMount.Vfs

open LittleEndian

/-- What `GET_LIST` writes for a rule. -/
def Rule.record (rule : Rule) : Bytes :=
  encode 4 rule.flags.toNat ++ (encode 4 rule.targetUid.toNat ++ (encode 2 rule.vPath.length ++
    (encode 2 rule.rPath.length ++ (rule.vPath ++ rule.rPath))))

/-- The loop of `GET_LIST` with the counter `current_idx`, which is compared as unsigned, and
the bytes written so far. -/
def listFrom (arg1 : UInt32) : List Rule → UInt32 → Bytes → UInt32 × Bytes
  | [], currentIdx, out => (currentIdx, out)
  | rule :: rest, currentIdx, out =>
    if currentIdx < arg1 then listFrom arg1 rest (currentIdx + 1) out
    else if BUFFER_LEN - out.length < RULE_HEADER_LEN + rule.vPath.length + rule.rPath.length
      then (currentIdx, out)
    else listFrom arg1 rest (currentIdx + 1) (out ++ rule.record)

/-- The page with the data and the index that a listing writes back. -/
def answerData (payload : Protocol.Payload) (arg1 : Nat) (out : Bytes) : Protocol.Payload :=
  { payload with status := 0, arg1 := arg1, dataSize := out.length,
                 buffer := out ++ payload.buffer.drop out.length }

def getList (rules : List Rule) (payload : Protocol.Payload) : Protocol.Payload :=
  let result := listFrom (.ofNat payload.arg1) rules 0 []
  answerData payload result.1.toNat result.2

/-- The isolated uids, counted by an `int`. -/
structure UidArray where
  uids : List UInt32
  counted : uids.length < 2 ^ 31

def getUids (arr : UidArray) (payload : Protocol.Payload) : Protocol.Payload :=
  let out := (arr.uids.drop payload.arg1).take (BUFFER_LEN / 4)
  answerData payload (payload.arg1 + out.length) (out.flatMap fun uid => encode 4 uid.toNat)

/-- The two listing commands of `hm_process_payload`. -/
def processListing (rules : List Rule) (arr : UidArray) (payload : Protocol.Payload) : Protocol.Payload :=
  if payload.magic ≠ Protocol.MAGIC then payload
  else if payload.cmd = Protocol.NmCommand.getList.code then getList rules payload
  else if payload.cmd = Protocol.NmCommand.getUids.code then getUids arr payload
  else payload

/-- The page goes to the kernel, which answers in place. -/
def exchange (rules : List Rule) (arr : UidArray) (request : Bytes) : Except Error Bytes :=
  .ok (processListing rules arr (readPayload request)).bytes

section

variable {α : Type}

def list (exchange : Bytes → Except Error Bytes) (command : Protocol.NmCommand)
    (parse : Bytes → Except Error (List α × UInt32)) : Except Error (List α) :=
  Protocol.paginate (fun cursor => do exchange (← Protocol.buildListPayload command cursor)) parse 0 []

/-- The parsers' next index, which comes from four bytes. -/
def withCursor (parsed : Except Error (List α × Nat)) : Except Error (List α × UInt32) :=
  parsed.map fun x => (x.1, .ofNat x.2)

end

def listRules (exchange : Bytes → Except Error Bytes) (format : RuleFormat) :
    Except Error (List Protocol.ListedRule) :=
  list exchange .getList fun page => withCursor (Protocol.parseListFor page format)

def listUids (exchange : Bytes → Except Error Bytes) : Except Error (List UInt32) :=
  list exchange .getUids fun page => withCursor (Protocol.parseUids page)

/-- What the client reports for a rule of the table. -/
def Rule.listed (rule : Rule) : Protocol.ListedRule :=
  ⟨.ofNat rule.flags.toNat, rule.targetUid, fromUtf8Lossy rule.vPath, fromUtf8Lossy rule.rPath⟩

section

variable {α : Type} {fetch : UInt32 → Except Error Bytes} {parse : Bytes → Except Error (List α × UInt32)}
  {items all : List α} {cursor count : Nat}

/-- The page at a cursor holds the next `count` items; only at the end it holds none. -/
structure Turns (fetch : UInt32 → Except Error Bytes) (parse : Bytes → Except Error (List α × UInt32))
    (items : List α) (cursor count : Nat) : Prop where
  page : ∃ page size, fetch (.ofNat cursor) = .ok page ∧ Protocol.readDataSize page = .ok size ∧
    parse page = .ok ((items.drop cursor).take count, .ofNat (cursor + count)) ∧ (count = 0 → size = 0)
  inside : cursor + count ≤ items.length
  moves : cursor < items.length → 0 < count

theorem isEmpty_take_drop (h : cursor < items.length) (hcount : 0 < count) :
    ((items.drop cursor).take count).isEmpty = false := by
  have hlen : ((items.drop cursor).take count).length ≠ 0 := by
    rw [List.length_take, List.length_drop]
    omega
  cases hb : (items.drop cursor).take count with
  | nil => simp [hb] at hlen
  | cons _ _ => rfl

/-- A page with items is appended, unless its cursor does not move. -/
theorem paginate_turn (h : Turns fetch parse items cursor count) (hc : cursor < items.length) :
    (UInt32.ofNat (cursor + count) ≤ UInt32.ofNat cursor →
      ∃ e, Protocol.paginate fetch parse (.ofNat cursor) all = .error e) ∧
    (¬ UInt32.ofNat (cursor + count) ≤ UInt32.ofNat cursor →
      Protocol.paginate fetch parse (.ofNat cursor) all =
        Protocol.paginate fetch parse (.ofNat (cursor + count)) (all ++ (items.drop cursor).take count)) := by
  obtain ⟨page, size, hfetch, hsize, hparse, -⟩ := h.page
  have hfull := isEmpty_take_drop hc (h.moves hc)
  generalize UInt32.ofNat (cursor + count) = next at *
  constructor
  · intro hle
    rw [Protocol.paginate]
    simp [hfetch, hparse, hfull, hle, bind, Except.bind, pure, Except.pure]
  · intro hgt
    conv_lhs => rw [Protocol.paginate]
    simp [hfetch, hparse, hfull, hgt, bind, Except.bind, pure, Except.pure]

theorem not_ofNat_le (hcount : 0 < count) (hsum : cursor + count < 2 ^ 32) :
    ¬ UInt32.ofNat (cursor + count) ≤ UInt32.ofNat cursor := by
  have hlow : cursor < 2 ^ 32 := by omega
  rw [UInt32.le_iff_toNat_le, UInt32.toNat_ofNat_of_lt' hsum, UInt32.toNat_ofNat_of_lt' hlow]
  omega

/-- As long as the index of the last item fits the cursor, all items arrive in order. -/
theorem paginate_all (hpage : ∀ c ≤ items.length, ∃ count, Turns fetch parse items c count)
    (hlen : items.length < 2 ^ 32) (hc : cursor ≤ items.length) :
    Protocol.paginate fetch parse (.ofNat cursor) all = .ok (all ++ items.drop cursor) := by
  induction hn : items.length - cursor using Nat.strongRecOn generalizing cursor all with
  | _ n ih =>
    obtain ⟨count, hturn⟩ := hpage cursor hc
    have hinside := hturn.inside
    by_cases hend : cursor = items.length
    · obtain ⟨page, size, hfetch, hsize, hparse, hzero⟩ := hturn.page
      have hcount : count = 0 := by omega
      rw [hzero hcount] at hsize
      rw [hcount, List.take_zero] at hparse
      rw [Protocol.paginate]
      simp [hfetch, hparse, hsize, bind, Except.bind, pure, Except.pure, Except.map, hend.ge]
    · have hlt : cursor < items.length := by omega
      have hmoves := hturn.moves hlt
      have hstep := (@paginate_turn α fetch parse items all cursor count hturn hlt).2
        (not_ofNat_le hmoves (by omega))
      rw [hstep, ih _ (by omega) hinside rfl, List.append_assoc, ← List.drop_drop, List.take_append_drop]

/-- A table of all the indices that a cursor can name is never read to its end. -/
theorem paginate_overflows (hpage : ∀ c ≤ items.length, c < 2 ^ 32 → ∃ count, Turns fetch parse items c count)
    (hlen : items.length = 2 ^ 32) (hc : cursor < items.length) :
    ∃ e, Protocol.paginate fetch parse (.ofNat cursor) all = .error e := by
  induction hn : items.length - cursor using Nat.strongRecOn generalizing cursor all with
  | _ n ih =>
    obtain ⟨count, hturn⟩ := hpage cursor hc.le (by omega)
    have hinside := hturn.inside
    have hmoves := hturn.moves hc
    obtain ⟨hstuck, hstep⟩ := @paginate_turn α fetch parse items all cursor count hturn hc
    by_cases hend : cursor + count = items.length
    · apply hstuck
      rw [UInt32.le_iff_toNat_le, UInt32.toNat_ofNat', hend, hlen, Nat.mod_self]
      exact Nat.zero_le _
    · rw [hstep (not_ofNat_le hmoves (by omega))]
      exact ih _ (by omega) (by omega) rfl

end

section

variable {rules : List Rule} {start i : Nat} {out : Bytes}

@[simp] theorem length_record (rule : Rule) :
    rule.record.length = RULE_HEADER_LEN + rule.vPath.length + rule.rPath.length := by
  simp only [Rule.record, RULE_HEADER_LEN, List.length_append, length_encode]
  omega

theorem listFrom_skip (hlow : i ≤ start) (hhigh : start ≤ i + rules.length) (hstart : start < 2 ^ 32) :
    listFrom (.ofNat start) rules (.ofNat i) out =
      listFrom (.ofNat start) (rules.drop (start - i)) (.ofNat start) out := by
  induction rules generalizing i with
  | nil =>
    have heq : i = start := by
      simp only [List.length_nil] at hhigh
      omega
    rw [heq, List.drop_nil]
  | cons rule rest ih =>
    by_cases heq : i = start
    · rw [heq, Nat.sub_self, List.drop_zero]
    · have hlt : UInt32.ofNat i < UInt32.ofNat start := by
        have hi : i < 2 ^ 32 := by omega
        rw [UInt32.lt_iff_toNat_lt, UInt32.toNat_ofNat_of_lt' hi, UInt32.toNat_ofNat_of_lt' hstart]
        omega
      have hsucc : UInt32.ofNat i + 1 = UInt32.ofNat (i + 1) := by rw [UInt32.ofNat_add]; rfl
      have hdrop : start - i = start - (i + 1) + 1 := by omega
      rw [listFrom, if_pos hlt, hsucc, hdrop, List.drop_succ_cons]
      apply ih
      · omega
      · rw [List.length_cons] at hhigh
        omega

/-- From the cursor on the loop writes records until one does not fit; into an empty
page the first one always fits. -/
theorem listFrom_fill (hlow : start ≤ i) (hhigh : i + rules.length ≤ 2 ^ 32) (hstart : start < 2 ^ 32)
    (hout : out.length ≤ BUFFER_LEN) :
    ∃ count ≤ rules.length, listFrom (.ofNat start) rules (.ofNat i) out =
        (.ofNat (i + count), out ++ (rules.take count).flatMap Rule.record) ∧
      (out ++ (rules.take count).flatMap Rule.record).length ≤ BUFFER_LEN ∧
      ((∀ r ∈ rules, Kernel.FitsPage r) → out = [] → rules ≠ [] → 0 < count) := by
  induction rules generalizing i out with
  | nil => exact ⟨0, le_rfl, by simp [listFrom], by simpa using hout, fun _ _ hne => absurd rfl hne⟩
  | cons rule rest ih =>
    rw [List.length_cons] at hhigh
    have hge : ¬ UInt32.ofNat i < UInt32.ofNat start := by
      have hi : i < 2 ^ 32 := by omega
      rw [UInt32.lt_iff_toNat_lt, UInt32.toNat_ofNat_of_lt' hi, UInt32.toNat_ofNat_of_lt' hstart]
      omega
    rw [listFrom, if_neg hge]
    by_cases hfull : BUFFER_LEN - out.length < RULE_HEADER_LEN + rule.vPath.length + rule.rPath.length
    · refine ⟨0, Nat.zero_le _, by simp [hfull], by simpa using hout, ?_⟩
      intro hfits hnil _
      have hrule : RULE_HEADER_LEN + rule.vPath.length + rule.rPath.length ≤ BUFFER_LEN :=
        hfits rule List.mem_cons_self
      rw [hnil, List.length_nil] at hfull
      omega
    · have hnext : (out ++ rule.record).length ≤ BUFFER_LEN := by
        rw [List.length_append, length_record]
        omega
      have hsucc : UInt32.ofNat i + 1 = UInt32.ofNat (i + 1) := by rw [UInt32.ofNat_add]; rfl
      obtain ⟨count, hcount, heq, hlen, -⟩ := @ih (i + 1) (out ++ rule.record) (by omega) (by omega) hnext
      refine ⟨count + 1, Nat.succ_le_succ hcount, ?_, ?_, fun _ _ _ => Nat.succ_pos _⟩
      · have hidx : i + 1 + count = i + (count + 1) := by omega
        rw [if_neg hfull, hsucc, heq, List.take_succ_cons, List.flatMap_cons, List.append_assoc, hidx]
      · rw [List.take_succ_cons, List.flatMap_cons, ← List.append_assoc]
        exact hlen

theorem listFrom_page (hstart : start ≤ rules.length) (hindex : start < 2 ^ 32) (hlen : rules.length ≤ 2 ^ 32)
    (hfits : ∀ r ∈ rules, Kernel.FitsPage r) :
    ∃ count, listFrom (.ofNat start) rules 0 [] =
        (.ofNat (start + count), ((rules.drop start).take count).flatMap Rule.record) ∧
      (((rules.drop start).take count).flatMap Rule.record).length ≤ BUFFER_LEN ∧
      start + count ≤ rules.length ∧ (start < rules.length → 0 < count) := by
  have hskip := @listFrom_skip rules start 0 [] (Nat.zero_le _) (by omega) hindex
  have hhigh : start + (rules.drop start).length ≤ 2 ^ 32 := by
    rw [List.length_drop]
    omega
  obtain ⟨count, hcount, heq, hpage, hmoves⟩ :=
    @listFrom_fill (rules.drop start) start start [] le_rfl hhigh hindex
    (Nat.zero_le _)
  refine ⟨count, ?_, by simpa using hpage, ?_, ?_⟩
  · have hzero : UInt32.ofNat 0 = 0 := rfl
    rw [hzero, Nat.sub_zero] at hskip
    rw [hskip, heq, List.nil_append]
  · rw [List.length_drop] at hcount
    omega
  · intro hlt
    apply hmoves (fun r hr => hfits r (List.mem_of_mem_drop hr)) rfl
    intro hnil
    have hzero := congrArg List.length hnil
    rw [List.length_drop, List.length_nil] at hzero
    omega

end

section

variable {payload : Protocol.Payload} {out : Bytes}

/-- What the client reads from an answered page. -/
theorem read_answerData (hbuffer : payload.buffer.length = BUFFER_LEN) (hout : out.length ≤ BUFFER_LEN)
    (arg1 : Nat) :
    Protocol.ensureStatus (answerData payload arg1 out).bytes = .ok () ∧
      Protocol.responseBody (answerData payload arg1 out).bytes = .ok out ∧
      Protocol.readArg1 (answerData payload arg1 out).bytes = .ok (arg1 % 256 ^ 4) ∧
      Protocol.readDataSize (answerData payload arg1 out).bytes = .ok out.length := by
  have hlen : (answerData payload arg1 out).buffer.length = BUFFER_LEN := by
    simp only [answerData, List.length_append, List.length_drop, hbuffer]
    omega
  have hsize : out.length % 256 ^ 4 = out.length := by
    simp only [BUFFER_LEN] at hout
    omega
  refine ⟨?_, ?_, Protocol.readArg1_bytes _, ?_⟩
  · have hstatus : Protocol.readStatus (answerData payload arg1 out).bytes = .ok 0 :=
      Protocol.readStatus_bytes _
    simp [Protocol.ensureStatus, Protocol.ensureStatusAllowing, hstatus, bind, Except.bind]
  · have hbody := @Protocol.responseBody_bytes (answerData payload arg1 out) hout hlen
    rw [hbody]
    simp [answerData]
  · have hread := Protocol.readDataSize_bytes (answerData payload arg1 out)
    rw [hread]
    exact congrArg Except.ok hsize

/-- A listing request with its cursor. -/
def listRequest (cmd : Protocol.NmCommand) (cursor : UInt32) : Protocol.Payload :=
  { Protocol.request cmd 0 [] with arg1 := cursor.toNat }

theorem buildListPayload_eq (cmd : Protocol.NmCommand) (cursor : UInt32) :
    Protocol.buildListPayload cmd cursor = .ok (listRequest cmd cursor).bytes := by
  have htake : ∀ a b : Bytes, a.length = 20 → (a ++ b).take 20 = a := fun a b ha => by simp [ha]
  have hdrop : ∀ a b c : Bytes, a.length = 20 → b.length = 4 → (a ++ (b ++ c)).drop 24 = c := by
    intro a b c ha hb
    rw [← List.append_assoc, List.drop_left' (by simp [ha, hb])]
  have hbytes : ∀ payload : Protocol.Payload,
      payload.bytes = (encode 8 payload.magic ++ (encode 4 payload.cmd ++
      (encode 4 payload.targetUid ++ encode 4 payload.status))) ++ (encode 4 payload.arg1 ++
        (encode 4 payload.dataSize ++ payload.buffer)) := by
    intro payload
    simp [Protocol.Payload.bytes]
  rw [Protocol.buildListPayload, Protocol.buildPayload_eq_ok (Nat.zero_le _)]
  simp only [bind, Except.bind, pure, Except.pure]
  rw [hbytes, htake _ _ (by simp), hdrop _ _ _ (by simp) (by simp), hbytes]
  rfl

theorem readPayload_listRequest (cmd : Protocol.NmCommand) (cursor : UInt32) :
    readPayload (listRequest cmd cursor).bytes = listRequest cmd cursor := by
  apply readPayload_bytes
  · exact (by decide : Protocol.MAGIC < 256 ^ 8)
  · show cmd.code < 256 ^ 4
    cases cmd <;> decide
  · exact (by decide : 0 < 256 ^ 4)
  · exact (by decide : 2 ^ 32 - 1 < 256 ^ 4)
  · exact cursor.toNat_lt
  · exact (by decide : 0 < 256 ^ 4)

theorem length_listRequest (cmd : Protocol.NmCommand) (cursor : UInt32) :
    (listRequest cmd cursor).buffer.length = BUFFER_LEN := by
  simp [listRequest, Protocol.request]

end

section

variable {rules : List Rule} {arr : UidArray} {cursor : Nat}

/-- A rule of the table as the client's encoder would have it. -/
def Rule.wire (rule : Rule) : UInt32 × Protocol.EncodedRule :=
  (rule.targetUid, ⟨.ofNat rule.flags.toNat, rule.vPath, rule.rPath⟩)

theorem record_eq (rule : Rule) : rule.record = rule.wire.2.writeRecord rule.wire.1 .hybridMount := by
  have hflags : (UInt32.ofNat rule.flags.toNat).toNat = rule.flags.toNat :=
    UInt32.toNat_ofNat_of_lt' (lt_trans rule.flags.toNat_lt (by decide))
  simp [Rule.record, Rule.wire, Protocol.EncodedRule.writeRecord, Protocol.writeUidRange]

theorem parseRecords_table (hfits : ∀ r ∈ rules, Kernel.FitsPage r) :
    Protocol.parseRecords .hybridMount (rules.flatMap Rule.record) 0 = .ok (rules.map Rule.listed) := by
  have hshort : ∀ x ∈ rules.map Rule.wire, x.2.virtualPath.length < 256 ^ 2 ∧
      x.2.realPath.length < 256 ^ 2 := by
    intro x hx
    obtain ⟨rule, hr, rfl⟩ := List.mem_map.mp hx
    have hle : RULE_HEADER_LEN + rule.vPath.length + rule.rPath.length ≤ BUFFER_LEN := hfits rule hr
    simp only [BUFFER_LEN] at hle
    simp only [Rule.wire]
    omega
  have hparse := @Protocol.parseRecords_mixed .hybridMount _ hshort []
  rw [List.flatMap_map, List.map_map] at hparse
  have hrecord : Rule.record = fun rule => rule.wire.2.writeRecord rule.wire.1 .hybridMount :=
    funext record_eq
  rw [hrecord]
  exact hparse

theorem ofNat_mod (n : Nat) : UInt32.ofNat (n % 256 ^ 4) = UInt32.ofNat n := by
  apply UInt32.toNat.inj
  rw [UInt32.toNat_ofNat', UInt32.toNat_ofNat']
  exact Nat.mod_mod n _

theorem turns_rules (hfits : ∀ r ∈ rules, Kernel.FitsPage r) (hlen : rules.length ≤ 2 ^ 32)
    (hc : cursor ≤ rules.length) (hindex : cursor < 2 ^ 32) :
    ∃ count, Turns (fun cursor => do exchange rules arr (← Protocol.buildListPayload .getList cursor))
      (fun page => withCursor (Protocol.parseListFor page .hybridMount)) (rules.map Rule.listed)
        cursor count := by
  obtain ⟨count, hlist, hout, hinside, hmoves⟩ := listFrom_page hc hindex hlen hfits
  have hpage : exchange rules arr (listRequest .getList (.ofNat cursor)).bytes =
      .ok (answerData (listRequest .getList (.ofNat cursor)) (UInt32.ofNat (cursor + count)).toNat
        (((rules.drop cursor).take count).flatMap Rule.record)).bytes := by
    have harg : UInt32.ofNat (listRequest .getList (.ofNat cursor)).arg1 = UInt32.ofNat cursor :=
      UInt32.ofNat_toNat
    have hmagic : (listRequest .getList (.ofNat cursor)).magic = Protocol.MAGIC := rfl
    have hcmd : (listRequest .getList (.ofNat cursor)).cmd = Protocol.NmCommand.getList.code := rfl
    rw [exchange, readPayload_listRequest, processListing, if_neg (not_not.mpr hmagic), if_pos hcmd, getList,
      harg, hlist]
  obtain ⟨hstatus, hbody, harg1, hsize⟩ := read_answerData (length_listRequest .getList (.ofNat cursor)) hout
    (UInt32.ofNat (cursor + count)).toNat
  refine ⟨count, ⟨_, _, ?_, hsize, ?_, ?_⟩, ?_, ?_⟩
  · simp only [buildListPayload_eq, bind, Except.bind, hpage]
  · have hpart := @parseRecords_table ((rules.drop cursor).take count) fun r hr =>
      hfits r (List.mem_of_mem_drop (List.mem_of_mem_take hr))
    simp only [Protocol.parseListFor, hstatus, hbody, hpart, harg1, bind, Except.bind, pure,
      Except.pure, withCursor,
      Except.map, ofNat_mod, UInt32.ofNat_toNat, List.map_take, List.map_drop]
  · intro hzero
    simp [hzero]
  · rw [List.length_map]
    exact hinside
  · rw [List.length_map]
    exact hmoves

theorem words_encode (uids : List UInt32) :
    Protocol.words (uids.flatMap fun uid => encode 4 uid.toNat) = uids := by
  induction uids with
  | nil => rfl
  | cons uid rest ih =>
    have hword : ∀ more, Protocol.words (encode 4 uid.toNat ++ more) =
        UInt32.ofNat (decode (encode 4 uid.toNat)) :: Protocol.words more := fun more => rfl
    rw [List.flatMap_cons, hword, ih, decode_encode_of_lt uid.toNat_lt, UInt32.ofNat_toNat]

theorem length_encodeUids (uids : List UInt32) :
    (uids.flatMap fun uid => encode 4 uid.toNat).length = 4 * uids.length := by
  induction uids with
  | nil => rfl
  | cons uid rest ih =>
    rw [List.flatMap_cons, List.length_append, length_encode, ih, List.length_cons]
    omega

theorem turns_uids (hc : cursor ≤ arr.uids.length) :
    ∃ count, Turns (fun cursor => do exchange rules arr (← Protocol.buildListPayload .getUids cursor))
      (fun page => withCursor (Protocol.parseUids page)) arr.uids cursor count := by
  have hcounted := arr.counted
  have hindex : cursor < 2 ^ 32 := by omega
  have hcount : ((arr.uids.drop cursor).take (BUFFER_LEN / 4)).length =
      min (BUFFER_LEN / 4) (arr.uids.length - cursor) := by
    rw [List.length_take, List.length_drop]
  generalize hpart : (arr.uids.drop cursor).take (BUFFER_LEN / 4) = part at hcount
  have hout : (part.flatMap fun uid => encode 4 uid.toNat).length ≤ BUFFER_LEN := by
    rw [length_encodeUids, hcount]
    simp only [BUFFER_LEN]
    omega
  have hpage : exchange rules arr (listRequest .getUids (.ofNat cursor)).bytes =
      .ok (answerData (listRequest .getUids (.ofNat cursor)) (cursor + part.length)
        (part.flatMap fun uid => encode 4 uid.toNat)).bytes := by
    have harg : (listRequest .getUids (.ofNat cursor)).arg1 = cursor := UInt32.toNat_ofNat_of_lt' hindex
    have hmagic : (listRequest .getUids (.ofNat cursor)).magic = Protocol.MAGIC := rfl
    have hcmd : (listRequest .getUids (.ofNat cursor)).cmd = Protocol.NmCommand.getUids.code := rfl
    have hother : Protocol.NmCommand.getUids.code ≠ Protocol.NmCommand.getList.code := by decide
    rw [exchange, readPayload_listRequest, processListing, if_neg (not_not.mpr hmagic), hcmd,
      if_neg hother, if_pos rfl,
      getUids, harg, hpart]
  obtain ⟨hstatus, hbody, harg1, hsize⟩ := read_answerData (length_listRequest .getUids (.ofNat cursor)) hout
    (cursor + part.length)
  refine ⟨part.length, ⟨_, _, ?_, hsize, ?_, ?_⟩, ?_, ?_⟩
  · simp only [buildListPayload_eq, bind, Except.bind, hpage]
  · have hwhole : ¬ (part.flatMap fun uid => encode 4 uid.toNat).length % 4 ≠ 0 := by
      rw [length_encodeUids]
      omega
    have htake : (arr.uids.drop cursor).take part.length = part := by
      rw [← hpart, List.take_eq_take_iff, List.length_take]
      omega
    simp only [Protocol.parseUids, hstatus, hbody, if_neg hwhole, words_encode, harg1, bind,
      Except.bind, pure,
      Except.pure, withCursor, Except.map, ofNat_mod, htake]
  · intro hzero
    rw [length_encodeUids, hzero]
  · omega
  · simp only [BUFFER_LEN] at hcount
    omega

end

end HybridMount.Vfs
