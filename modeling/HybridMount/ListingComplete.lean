import HybridMount.AdditionFrame
import HybridMount.Listing

/-! A listing shows the whole table as long as its cursor can name every rule. -/

namespace HybridMount.Vfs

open LittleEndian

open Kernel

/-- The name of the directory with this number has one letter for each bit. -/
def folder (t : Nat) : Bytes := (List.range 32).map fun i => if t.testBit i then 98 else 97

/-- The entry `a` of the directory. -/
def spot (t : Nat) : Bytes := SLASH :: folder t ++ SLASH :: [97]

/-- A whiteout of the entry `a` in each of the first `n` directories. -/
structure Spread (n : Nat) (k : Kernel) : Prop where
  reachable : Reachable ZeroFree k
  housed : Housed k
  length : k.rules.length = n
  paths : ∀ r ∈ k.rules, ∃ t < n, r.vPath = spot t
  unhooked : ∀ number ≥ n, k.hooks number = none

section

variable {above name : Bytes} {s t n : Nat}

theorem lastSlash_append (h : SLASH ∉ name) : lastSlash (above ++ SLASH :: name) = some above.length := by
  have hlength : (above ++ SLASH :: name).length = above.length + 1 + name.length := by
    rw [List.length_append, List.length_cons]
    omega
  have hnone : ((List.range name.length).map (above.length + 1 + ·)).reverse.find?
      (fun i => (above ++ SLASH :: name).getD i 0 = SLASH) = none := by
    rw [List.find?_eq_none]
    intro i hi
    simp only [List.mem_reverse, List.mem_map, List.mem_range] at hi
    obtain ⟨j, hj, rfl⟩ := hi
    have hname : (above ++ SLASH :: name).getD (above.length + 1 + j) 0 = name.getD j 0 := by
      rw [List.getD_append_right _ _ _ _ (by omega),
        show above.length + 1 + j - above.length = j + 1 by omega]
      rfl
    rw [hname, decide_eq_true_eq, List.getD_eq_getElem _ _ hj]
    intro heq
    exact h (heq ▸ List.getElem_mem hj)
  unfold lastSlash
  rw [hlength, List.range_add, List.reverse_append, List.find?_append, hnone, List.range_succ,
    List.reverse_append]
  simp

theorem length_spot (t : Nat) : (spot t).length = 35 := by
  simp [spot, folder]

theorem lastSlash_spot (t : Nat) : lastSlash (spot t) = some 33 := by
  have hlast : lastSlash (spot t) = some (SLASH :: folder t).length := lastSlash_append (by decide)
  rw [hlast]
  simp [folder]

theorem stripSlashes_spot (t : Nat) : stripSlashes (spot t) = spot t := by
  rw [stripSlashes, dif_neg]
  rintro ⟨-, hlast⟩
  have hletter : (spot t).getLast? = some 97 := by
    unfold spot
    rw [List.getLast?_append]
    rfl
  rw [hletter] at hlast
  cases hlast

theorem spot_zeroFree (t : Nat) : ZeroFree (spot t) := by
  intro hzero
  simp only [spot, folder, List.cons_append, List.mem_cons, List.mem_append, List.mem_map] at hzero
  rcases hzero with h | ⟨i, -, hi⟩ | h | h | h
  · cases h
  · split at hi <;> cases hi
  · cases h
  · cases h
  · cases h

theorem spot_injective (hs : s < 2 ^ 32) (ht : t < 2 ^ 32) (h : spot s = spot t) : s = t := by
  have hfolder : folder s = folder t := by
    have htail := (List.cons.inj h).2
    exact (List.append_inj htail (by simp [folder])).1
  apply Nat.eq_of_testBit_eq
  intro i
  by_cases hi : i < 32
  · have hletter := List.map_inj_left.mp hfolder i (List.mem_range.mpr hi)
    cases hsi : s.testBit i <;> cases hti : t.testBit i <;> simp [hsi, hti] at hletter ⊢
  · have hle : 2 ^ 32 ≤ 2 ^ i := Nat.pow_le_pow_right (by decide) (not_lt.mp hi)
    rw [Nat.testBit_lt_two_pow (hs.trans_le hle), Nat.testBit_lt_two_pow (ht.trans_le hle)]

theorem hooks_retire (k : Kernel) : (retire k).hooks = k.hooks := by
  have hfold : ∀ (rules : List Rule) (m : Kernel), (rules.foldl disown m).hooks = m.hooks := by
    intro rules
    induction rules with
    | nil => exact fun _ => rfl
    | cons rule rest ih =>
      intro m
      have hone : (disown m rule).hooks = m.hooks := by
        unfold disown
        split <;> rfl
      exact (ih (disown m rule)).trans hone
  exact hfold k.victims k

/-- The whiteout of the next directory's entry is the first child there, so that no array has to grow. -/
theorem Spread.next {k : Kernel} (h : Spread n k) (hn : n < 2 ^ 32) : ∃ k', Spread (n + 1) k' := by
  have hfresh : ∀ r ∈ k.rules, r.vPath ≠ (spot n).take (parentLen 33) ∧
      ¬ (r.vPath = spot n ∧ r.targetUid = 0) := by
    intro r hr
    obtain ⟨t, ht, hpath⟩ := h.paths r hr
    constructor
    · intro htake
      have hlength := congrArg List.length (hpath.symm.trans htake)
      rw [List.length_take, length_spot, length_spot] at hlength
      exact absurd hlength (by decide)
    · rintro ⟨hsame, -⟩
      have heq := spot_injective (ht.trans hn) hn (hpath.symm.trans hsame)
      omega
  obtain ⟨k', hadd, hrules, hhooks⟩ :=
    addRule_whiteout h.reachable.synced h.housed (lastSlash_spot n) (stripSlashes_spot n)
    (by rw [length_spot]; decide) (spot_zeroFree n) (by rw [length_spot]; decide) (h.unhooked n le_rfl) hfresh
  have hsize : RULE_HEADER_LEN + (spot n).length + ([] : Bytes).length ≤ BUFFER_LEN := by
    rw [length_spot]
    decide
  have hfits : Request.Fits ⟨spot n, [], 4, 0⟩ := ⟨spot_zeroFree n, hsize⟩
  refine ⟨retire k', ?_, ?_, ?_, ?_, ?_⟩
  · exact h.reachable.addOne hsize (by decide : 4 < 2 ^ 32) (spot_zeroFree n) hadd
  · exact (h.housed.addRule h.reachable.synced hfits (known_directory n k) hadd).1.retire
  · rw [(same_retire k').rules, hrules, List.length_append, h.length]
    rfl
  · intro r hr
    rw [(same_retire k').rules, hrules] at hr
    rcases List.mem_append.mp hr with hr | hr
    · obtain ⟨t, ht, hpath⟩ := h.paths r hr
      exact ⟨t, ht.trans (Nat.lt_succ_self n), hpath⟩
    · rw [List.mem_singleton.mp hr]
      exact ⟨n, Nat.lt_succ_self n, rfl⟩
  · intro number hnumber
    rw [hooks_retire, hhooks, Function.update_of_ne (by omega)]
    exact h.unhooked number (by omega)

/-- Tables of every size up to the range of the cursor are reached. -/
theorem reachable_spread (hn : n ≤ 2 ^ 32) : ∃ k, Spread n k := by
  induction n with
  | zero =>
    refine ⟨boot, .boot, boot_housed, rfl, ?_, fun _ _ => rfl⟩
    intro r hr
    cases hr
  | succ n ih =>
    obtain ⟨k, hk⟩ := ih (by omega)
    exact hk.next (by omega)

end

/-- Every table of fewer than `2 ^ 32` rules is listed completely and in order, as is
every table of uids. -/
theorem listing_complete {k : Kernel} (h : Reachable AnyPath k) (hlen : k.rules.length < 2 ^ 32)
    (arr : UidArray) :
    listRules (exchange k.rules arr) .hybridMount = .ok (k.rules.map Rule.listed) ∧
      listUids (exchange k.rules arr) = .ok arr.uids := by
  constructor
  · have hlen' : (k.rules.map Rule.listed).length < 2 ^ 32 := by
      rw [List.length_map]
      exact hlen
    have hpage : ∀ c ≤ (k.rules.map Rule.listed).length, ∃ count,
        Turns (fun cursor => do exchange k.rules arr (← Protocol.buildListPayload .getList cursor))
          (fun page => withCursor (Protocol.parseListFor page .hybridMount)) (k.rules.map Rule.listed)
            c count := by
      intro c hc
      rw [List.length_map] at hc
      exact turns_rules h.bounded.rules hlen.le hc (by omega)
    exact paginate_all hpage hlen' (Nat.zero_le _)
  · have hcounted := arr.counted
    have hall := @paginate_all _ _ _ arr.uids [] 0 (fun c hc => @turns_uids k.rules arr c hc) (by omega)
      (Nat.zero_le _)
    exact hall

/-- Three rules are listed. -/
theorem listing_complete_three : ∃ k, Reachable AnyPath k ∧ k.rules.length = 3 ∧
    listRules (exchange k.rules ⟨[10001], by decide⟩) .hybridMount = .ok (k.rules.map Rule.listed) ∧
    listUids (exchange k.rules ⟨[10001], by decide⟩) = .ok [10001] := by
  obtain ⟨k, hk⟩ := @reachable_spread 3 (by decide)
  have hany : Reachable AnyPath k := hk.reachable.widen fun _ _ => trivial
  exact ⟨k, hany, hk.length, listing_complete hany (by rw [hk.length]; decide) _⟩

/-- The cursor comes back to zero behind the last of `2 ^ 32` rules, and the client refuses it. -/
theorem listing_refused : ¬ ∀ k, Reachable AnyPath k → ∀ arr : UidArray,
    listRules (exchange k.rules arr) .hybridMount = .ok (k.rules.map Rule.listed) := by
  intro hall
  obtain ⟨k, hk⟩ := @reachable_spread (2 ^ 32) le_rfl
  have hlen := hk.length
  have hany : Reachable AnyPath k := hk.reachable.widen fun _ _ => trivial
  have hpage : ∀ c ≤ (k.rules.map Rule.listed).length, c < 2 ^ 32 → ∃ count,
      Turns (fun cursor => do exchange k.rules ⟨[], by decide⟩ (← Protocol.buildListPayload .getList cursor))
        (fun page => withCursor (Protocol.parseListFor page .hybridMount)) (k.rules.map Rule.listed) c count := by
    intro c hc hlt
    rw [List.length_map] at hc
    exact turns_rules hany.bounded.rules hlen.le hc hlt
  have hfull : (k.rules.map Rule.listed).length = 2 ^ 32 := by rw [List.length_map, hlen]
  obtain ⟨e, he⟩ := @paginate_overflows _ _ _ _ [] 0 hpage hfull (by rw [hfull]; decide)
  have hok := hall k hany ⟨[], by decide⟩
  have hsame : listRules (exchange k.rules ⟨[], by decide⟩) .hybridMount = .error e := he
  rw [hsame] at hok
  cases hok

end HybridMount.Vfs
