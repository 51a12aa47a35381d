import HybridMount.ModuleImage
import HybridMount.OrderedMap
import HybridMount.Text
import Mathlib.Data.List.Dedup

/-! How the undefined symbols of a module are given addresses from a listing of the kernel's
symbols, and that the order of the listing does not matter. -/

namespace HybridMount

open LittleEndian

namespace Lkm

/-- A line with three fields and a usable address. -/
structure Candidate where
  address : Nat
  name : String
  deriving DecidableEq

def candidate (line : String) : Option Candidate :=
  match Text.splitWhitespace line.toList with
  | [address, _, name] =>
    match Text.fromHex (2 ^ 64) address with
    | some address => if address = 0 then none else some ⟨address, String.ofList name⟩
    | none => none
  | _ => none

def canonicalName (name : String) : String :=
  match Text.splitOnce ".llvm.".toList name.toList with
  | some parts => String.ofList parts.1
  | none =>
    match Text.splitOnce ['$'] name.toList with
    | some parts => String.ofList parts.1
    | none => name

/-- The address found so far, zero for several, and whether it came from an exact name. -/
abbrev Slot := Option (Nat × Bool)

def updateSlot (address : Nat) (exact : Bool) : Slot → Slot
  | none => some (address, exact)
  | some (previous, wasExact) =>
    if !wasExact && exact then some (address, true)
    else if wasExact == exact && previous != address then some (0, exact)
    else some (previous, wasExact)

abbrev Addresses := List (String × Slot)

def Addresses.find (addresses : Addresses) (name : String) : Option Slot :=
  OrderedMap.get compare name addresses

def Addresses.put (addresses : Addresses) (name : String) (slot : Slot) : Addresses :=
  OrderedMap.insert compare name slot addresses

def undefinedAddresses (undefined : List (String × Nat)) : Addresses :=
  undefined.foldl (fun addresses symbol => addresses.put symbol.1 none) []

def recordCandidate (addresses : Addresses) (found : Candidate) : Addresses :=
  let key := if (addresses.find found.name).isSome then found.name else canonicalName found.name
  match addresses.find key with
  | none => addresses
  | some slot => addresses.put key (updateSlot found.address (key == found.name) slot)

def recordLine (addresses : Addresses) (line : String) : Addresses :=
  match candidate line with
  | none => addresses
  | some found => recordCandidate addresses found

def readKallsyms (addresses : Addresses) : List (Except String String) → Except String Addresses
  | [] => .ok addresses
  | .error e :: _ => .error ("read kallsyms: " ++ e)
  | .ok line :: lines => readKallsyms (recordLine addresses line) lines

def resolvedAddress (addresses : Addresses) (name : String) : Option Nat :=
  match addresses.find name with
  | some (some (address, _)) => if address = 0 then none else some address
  | _ => none

/-- The section index of an absolute symbol, and its value. -/
def writeSymbol (bytes : Bytes) (offset address : Nat) : Bytes :=
  overwrite (overwrite bytes (offset + 6) (encode 2 0xfff1)) (offset + 8) (encode 8 address)

def applySymbol (resolve : String → Option Nat) (acc : Bytes × Nat) (symbol : String × Nat) : Bytes × Nat :=
  match resolve symbol.1 with
  | none => acc
  | some address => (writeSymbol acc.1 symbol.2 address, acc.2 + 1)

def applySymbols (resolve : String → Option Nat) (undefined : List (String × Nat)) (acc : Bytes × Nat) :
    Bytes × Nat :=
  undefined.foldl (applySymbol resolve) acc

theorem length_first_field {bytes : Bytes} {offset : Nat} (h : offset + 24 ≤ bytes.length) :
    (overwrite bytes (offset + 6) (encode 2 0xfff1)).length = bytes.length := by
  rw [length_overwrite]
  rw [length_encode]
  omega

theorem length_writeSymbol {bytes : Bytes} {offset : Nat} (h : offset + 24 ≤ bytes.length) (address : Nat) :
    (writeSymbol bytes offset address).length = bytes.length := by
  have hfirst := length_first_field h
  rw [writeSymbol, length_overwrite, hfirst]
  rw [length_encode, hfirst]
  omega

theorem length_applySymbol {resolve : String → Option Nat} {acc : Bytes × Nat} {symbol : String × Nat}
    (h : symbol.2 + 24 ≤ acc.1.length) : (applySymbol resolve acc symbol).1.length = acc.1.length := by
  unfold applySymbol
  cases resolve symbol.1 with
  | none => rfl
  | some address => exact length_writeSymbol h address

theorem length_applySymbols {resolve : String → Option Nat} {undefined : List (String × Nat)}
    {acc : Bytes × Nat}
    (h : ∀ symbol ∈ undefined, symbol.2 + 24 ≤ acc.1.length) :
    (applySymbols resolve undefined acc).1.length = acc.1.length := by
  induction undefined generalizing acc with
  | nil => rfl
  | cons symbol undefined ih =>
    have hone : (applySymbol resolve acc symbol).1.length = acc.1.length :=
      length_applySymbol (h symbol List.mem_cons_self)
    have hrest := ih fun s hs => hone.symm ▸ h s (List.mem_cons_of_mem _ hs)
    exact hrest.trans hone

/-- The same image with other bytes in the same places. -/
def ModuleImage.withBytes (image : ModuleImage) (bytes : Bytes) (h : bytes.length = image.bytes.length) :
    ModuleImage :=
  { image with
    bytes := bytes
    header_le := h.symm ▸ image.header_le
    undefined_le := fun symbol hs => h.symm ▸ image.undefined_le symbol hs }

/-- The image is changed only after the whole listing was read. -/
def ModuleImage.resolveSymbols (image : ModuleImage) (lines : List (Except String String)) :
    Except String (ModuleImage × Nat) := do
  let addresses ← readKallsyms (undefinedAddresses image.undefined) lines
  let applied := applySymbols (resolvedAddress addresses) image.undefined (image.bytes, 0)
  return (image.withBytes applied.1 (length_applySymbols image.undefined_le), applied.2)

/-- The one address of a list which has exactly one distinct address. -/
def uniqueAddress (addresses : List Nat) : Option Nat :=
  match addresses.dedup with
  | [address] => some address
  | _ => none

def exactAddresses (found : List Candidate) (name : String) : List Nat :=
  (found.filter fun c => c.name = name).map Candidate.address

/-- The addresses under names which are not undefined themselves and are cut to the given one. -/
def suffixedAddresses (names : List String) (found : List Candidate) (name : String) : List Nat :=
  (found.filter fun c => c.name ∉ names ∧ canonicalName c.name = name).map Candidate.address

/-- Exact names come first; several distinct addresses leave a symbol unresolved. -/
def wantedAddress (names : List String) (found : List Candidate) (name : String) : Option Nat :=
  if exactAddresses found name = [] then uniqueAddress (suffixedAddresses names found name)
  else uniqueAddress (exactAddresses found name)

theorem uniqueAddress_eq_some {addresses : List Nat} {a : Nat} :
    uniqueAddress addresses = some a ↔ a ∈ addresses ∧ ∀ x ∈ addresses, x = a := by
  have hnodup := List.nodup_dedup addresses
  have hmem : ∀ x, x ∈ addresses.dedup ↔ x ∈ addresses := fun x => List.mem_dedup
  unfold uniqueAddress
  generalize addresses.dedup = distinct at hnodup hmem
  cases distinct with
  | nil =>
    constructor
    · intro h
      cases h
    · intro h
      exact absurd ((hmem a).mpr h.1) List.not_mem_nil
  | cons x rest =>
    cases rest with
    | nil =>
      refine ⟨fun h => ?_, fun h => ?_⟩
      · cases h
        exact ⟨(hmem a).mp List.mem_cons_self, fun y hy => List.mem_singleton.mp ((hmem y).mpr hy)⟩
      · rw [h.2 x ((hmem x).mp List.mem_cons_self)]
    | cons y rest =>
      constructor
      · intro h
        cases h
      · intro h
        have hx := h.2 x ((hmem x).mp List.mem_cons_self)
        have hy := h.2 y ((hmem y).mp (List.mem_cons_of_mem _ List.mem_cons_self))
        rw [hx, hy] at hnodup
        exact absurd List.mem_cons_self (List.nodup_cons.mp hnodup).1

theorem uniqueAddress_perm {addresses addresses' : List Nat} (h : addresses.Perm addresses') :
    uniqueAddress addresses = uniqueAddress addresses' := by
  refine Option.ext fun a => ?_
  rw [uniqueAddress_eq_some, uniqueAddress_eq_some]
  simp only [h.mem_iff]

theorem wantedAddress_perm {found found' : List Candidate} (h : found.Perm found') (names : List String)
    (name : String) :
    wantedAddress names found name = wantedAddress names found' name := by
  have hexact : (exactAddresses found name).Perm (exactAddresses found' name) := (h.filter _).map _
  have hsuffixed : (suffixedAddresses names found name).Perm (suffixedAddresses names found' name) :=
    (h.filter _).map _
  have hnil : exactAddresses found name = [] ↔ exactAddresses found' name = [] :=
    ⟨fun hh => (hh ▸ hexact).nil_eq.symm, fun hh => (hh ▸ hexact).eq_nil⟩
  simp only [wantedAddress, hnil, uniqueAddress_perm hexact, uniqueAddress_perm hsuffixed]

/-- A marker sums a list up: its only address, or zero for several. -/
def Agreed (addresses : List Nat) (a : Nat) : Prop :=
  (a ≠ 0 ∧ a ∈ addresses ∧ ∀ x ∈ addresses, x = a) ∨ (a = 0 ∧ ∃ x ∈ addresses, ∃ y ∈ addresses, x ≠ y)

theorem Agreed.singleton {a : Nat} (h : a ≠ 0) : Agreed [a] a :=
  Or.inl ⟨h, List.mem_singleton.mpr rfl, fun _ hx => List.mem_singleton.mp hx⟩

theorem Agreed.same {addresses : List Nat} {a : Nat} (h : Agreed addresses a) (hne : a ≠ 0) :
    Agreed (addresses ++ [a]) a := by
  rcases h with ⟨-, hmem, hall⟩ | ⟨hz, -⟩
  · refine Or.inl ⟨hne, List.mem_append_left _ hmem, fun x hx => ?_⟩
    exact (List.mem_append.mp hx).elim (hall x) List.mem_singleton.mp
  · exact absurd hz hne

theorem Agreed.differ {addresses : List Nat} {a b : Nat} (h : Agreed addresses a) (hne : a ≠ b) :
    Agreed (addresses ++ [b]) 0 := by
  have hb : b ∈ addresses ++ [b] := List.mem_append_right _ (List.mem_singleton.mpr rfl)
  rcases h with ⟨-, hmem, -⟩ | ⟨-, x, hx, y, hy, hxy⟩
  · exact Or.inr ⟨rfl, a, List.mem_append_left _ hmem, b, hb, hne⟩
  · exact Or.inr ⟨rfl, x, List.mem_append_left _ hx, y, List.mem_append_left _ hy, hxy⟩

theorem Agreed.ne_nil {addresses : List Nat} {a : Nat} (h : Agreed addresses a) : addresses ≠ [] := by
  rcases h with ⟨-, hmem, -⟩ | ⟨-, x, hx, -⟩
  · exact List.ne_nil_of_mem hmem
  · exact List.ne_nil_of_mem hx

theorem Agreed.unique {addresses : List Nat} {a : Nat} (h : Agreed addresses a) :
    uniqueAddress addresses = if a = 0 then none else some a := by
  refine Option.ext fun b => ?_
  rw [uniqueAddress_eq_some]
  rcases h with ⟨hne, hmem, hall⟩ | ⟨rfl, x, hx, y, hy, hxy⟩
  · rw [if_neg hne]
    constructor
    · rintro ⟨hb, -⟩
      rw [hall b hb]
    · intro hb
      cases hb
      exact ⟨hmem, hall⟩
  · constructor
    · rintro ⟨-, hb⟩
      exact absurd ((hb x hx).trans (hb y hy).symm) hxy
    · intro hb
      cases hb

/-- What the slot of a name stands for. -/
def Sums (names : List String) (found : List Candidate) (name : String) : Slot → Prop
  | none => exactAddresses found name = [] ∧ suffixedAddresses names found name = []
  | some (a, true) => Agreed (exactAddresses found name) a
  | some (a, false) => exactAddresses found name = [] ∧ Agreed (suffixedAddresses names found name) a

theorem Sums.wanted {names : List String} {found : List Candidate} {name : String} {slot : Slot}
    (h : Sums names found name slot) :
    wantedAddress names found name = (match slot with
      | some (a, _) => if a = 0 then none else some a
      | none => none) := by
  cases slot with
  | none =>
    rw [wantedAddress, if_pos h.1, h.2]
    rfl
  | some entry =>
    obtain ⟨a, exact⟩ := entry
    cases exact with
    | true =>
      have hne := Agreed.ne_nil h
      rw [wantedAddress, if_neg hne, Agreed.unique h]
    | false => rw [wantedAddress, if_pos h.1, Agreed.unique h.2]

section Record

variable {names : List String} {found : List Candidate} {name : String} {slot : Slot} {next : Candidate}

theorem exactAddresses_append : exactAddresses (found ++ [next]) name =
    exactAddresses found name ++ if next.name = name then [next.address] else [] := by
  by_cases h : next.name = name
  · simp [exactAddresses, h]
  · simp [exactAddresses, h]

theorem suffixedAddresses_append : suffixedAddresses names (found ++ [next]) name =
    suffixedAddresses names found name ++
      if next.name ∉ names ∧ canonicalName next.name = name then [next.address] else [] := by
  by_cases h : next.name ∉ names ∧ canonicalName next.name = name
  · simp [suffixedAddresses, h]
  · rw [if_neg h, List.append_nil, suffixedAddresses, List.filter_append, List.filter_singleton,
      decide_eq_false h]
    simp [suffixedAddresses]

/-- A line for another name. -/
theorem Sums.other (h : Sums names found name slot) (hexact : next.name ≠ name)
    (hsuffixed : ¬ (next.name ∉ names ∧ canonicalName next.name = name)) :
    Sums names (found ++ [next]) name slot := by
  have he : exactAddresses (found ++ [next]) name = exactAddresses found name := by
    rw [exactAddresses_append, if_neg hexact, List.append_nil]
  have hs : suffixedAddresses names (found ++ [next]) name = suffixedAddresses names found name := by
    rw [suffixedAddresses_append, if_neg hsuffixed, List.append_nil]
  cases slot with
  | none => exact ⟨he.trans h.1, hs.trans h.2⟩
  | some entry =>
    obtain ⟨a, exact⟩ := entry
    cases exact with
    | true => exact (congrArg (Agreed · a) he).mpr h
    | false => exact ⟨he.trans h.1, (congrArg (Agreed · a) hs).mpr h.2⟩

theorem Sums.exact (h : Sums names found name slot) (hname : next.name = name) (hz : next.address ≠ 0) :
    Sums names (found ++ [next]) name (updateSlot next.address true slot) := by
  have he : exactAddresses (found ++ [next]) name = exactAddresses found name ++ [next.address] := by
    rw [exactAddresses_append, if_pos hname]
  have hfirst : exactAddresses found name = [] →
      Agreed (exactAddresses (found ++ [next]) name) next.address := by
    intro hnil
    rw [he, hnil]
    exact Agreed.singleton hz
  cases slot with
  | none => exact hfirst h.1
  | some entry =>
    obtain ⟨a, exact⟩ := entry
    cases exact with
    | false => exact hfirst h.1
    | true =>
      change Sums names (found ++ [next]) name (if a != next.address then some (0, true) else some (a, true))
      have hagreed : Agreed (exactAddresses found name) a := h
      by_cases ha : a = next.address
      · subst ha
        rw [if_neg (by simp)]
        exact (congrArg (Agreed · _) he).mpr (hagreed.same hz)
      · rw [if_pos (by simpa using ha)]
        exact (congrArg (Agreed · _) he).mpr (hagreed.differ ha)

theorem Sums.suffixed (h : Sums names found name slot) (hname : next.name ≠ name) (hnames : next.name ∉ names)
    (hcanonical : canonicalName next.name = name) (hz : next.address ≠ 0) :
    Sums names (found ++ [next]) name (updateSlot next.address false slot) := by
  have he : exactAddresses (found ++ [next]) name = exactAddresses found name := by
    rw [exactAddresses_append, if_neg hname, List.append_nil]
  have hs : suffixedAddresses names (found ++ [next]) name = suffixedAddresses names found name ++
      [next.address] := by
    rw [suffixedAddresses_append, if_pos ⟨hnames, hcanonical⟩]
  cases slot with
  | none =>
    refine ⟨he.trans h.1, ?_⟩
    rw [hs, h.2]
    exact Agreed.singleton hz
  | some entry =>
    obtain ⟨a, exact⟩ := entry
    cases exact with
    | true => exact (congrArg (Agreed · a) he).mpr h
    | false =>
      change Sums names (found ++ [next]) name
        (if a != next.address then some (0, false) else some (a, false))
      by_cases ha : a = next.address
      · subst ha
        rw [if_neg (by simp)]
        exact ⟨he.trans h.1, (congrArg (Agreed · _) hs).mpr (h.2.same hz)⟩
      · rw [if_pos (by simpa using ha)]
        exact ⟨he.trans h.1, (congrArg (Agreed · _) hs).mpr (h.2.differ ha)⟩

end Record

/-- The map holds the undefined names, each with the sum of the lines so far. -/
structure Tracks (names : List String) (found : List Candidate) (addresses : Addresses) : Prop where
  inside : ∀ name ∈ names, ∃ slot, addresses.find name = some slot ∧ Sums names found name slot
  outside : ∀ name, name ∉ names → addresses.find name = none

section Track

variable {names : List String} {found : List Candidate} {addresses : Addresses} {next : Candidate}
  {key : String} {slot : Slot}

theorem find_put (name : String) : (addresses.put key slot).find name = if name = key then some slot
      else addresses.find name :=
  OrderedMap.get_insert

theorem Tracks.put (h : Tracks names found addresses) (hkey : key ∈ names)
    (hslot : Sums names (found ++ [next]) key slot)
    (hother : ∀ name ∈ names, name ≠ key → next.name ≠ name ∧
      ¬ (next.name ∉ names ∧ canonicalName next.name = name)) :
    Tracks names (found ++ [next]) (addresses.put key slot) := by
  refine ⟨fun name hname => ?_, fun name hname => ?_⟩
  · by_cases hk : name = key
    · subst hk
      exact ⟨slot, by rw [find_put, if_pos rfl], hslot⟩
    · obtain ⟨old, hfind, hsums⟩ := h.inside name hname
      obtain ⟨hexact, hsuffixed⟩ := hother name hname hk
      exact ⟨old, by rw [find_put, if_neg hk, hfind], hsums.other hexact hsuffixed⟩
  · have hk : name ≠ key := fun hh => hname (hh ▸ hkey)
    rw [find_put, if_neg hk, h.outside name hname]

theorem Tracks.recordCandidate (h : Tracks names found addresses) (hz : next.address ≠ 0) :
    Tracks names (found ++ [next]) (Lkm.recordCandidate addresses next) := by
  unfold Lkm.recordCandidate
  by_cases hexact : next.name ∈ names
  · obtain ⟨slot, hfind, hsums⟩ := h.inside next.name hexact
    simp only [hfind, Option.isSome_some, if_true, beq_self_eq_true]
    refine h.put hexact (hsums.exact rfl hz) fun name _ hne => ⟨Ne.symm hne, fun hh => hh.1 hexact⟩
  · have hnone := h.outside next.name hexact
    simp only [hnone, Option.isSome_none, Bool.false_eq_true, if_false]
    by_cases hcanonical : canonicalName next.name ∈ names
    · have hne : next.name ≠ canonicalName next.name := fun hh => hexact (hh ▸ hcanonical)
      obtain ⟨slot, hfind, hsums⟩ := h.inside _ hcanonical
      have hbeq : (canonicalName next.name == next.name) = false := beq_false_of_ne hne.symm
      simp only [hfind, hbeq]
      refine h.put hcanonical (hsums.suffixed hne hexact rfl hz) fun name hname hk => ?_
      exact ⟨fun hh => hexact (hh ▸ hname), fun hh => hk hh.2.symm⟩
    · simp only [h.outside _ hcanonical]
      refine ⟨fun name hname => ?_, h.outside⟩
      obtain ⟨slot, hfind, hsums⟩ := h.inside name hname
      exact ⟨slot, hfind, hsums.other (fun hh => hexact (hh ▸ hname)) fun hh => hcanonical (hh.2 ▸ hname)⟩

end Track

theorem candidate_address {line : String} {found : Candidate} (h : candidate line = some found) :
    found.address ≠ 0 ∧ found.address < 2 ^ 64 := by
  unfold candidate at h
  split at h
  · rename_i address kind name heq
    cases ha : Text.fromHex (2 ^ 64) address with
    | none => simp only [ha] at h; cases h
    | some n =>
      simp only [ha] at h
      by_cases hz : n = 0
      · rw [if_pos hz] at h
        cases h
      · rw [if_neg hz] at h
        cases h
        exact ⟨hz, Text.fromHex_lt ha (by omega)⟩
  · cases h

theorem readKallsyms_tracks {names : List String} (texts : List String) {found : List Candidate}
    {addresses : Addresses}
    (h : Tracks names found addresses) :
    ∃ final, readKallsyms addresses (texts.map Except.ok) = .ok final ∧
      Tracks names (found ++ texts.filterMap candidate) final := by
  induction texts generalizing found addresses with
  | nil => exact ⟨addresses, rfl, by rw [List.filterMap_nil, List.append_nil]; exact h⟩
  | cons line texts ih =>
    rw [List.map_cons, readKallsyms]
    cases hc : candidate line with
    | none =>
      have hline : recordLine addresses line = addresses := by
        unfold recordLine
        simp only [hc]
      rw [hline, List.filterMap_cons_none hc]
      exact ih h
    | some next =>
      have hline : recordLine addresses line = recordCandidate addresses next := by
        unfold recordLine
        simp only [hc]
      obtain ⟨final, hread, htracks⟩ := ih (h.recordCandidate (candidate_address hc).1)
      rw [hline, List.filterMap_cons_some hc]
      refine ⟨final, hread, ?_⟩
      rw [List.append_assoc] at htracks
      exact htracks

theorem find_undefinedAddresses (undefined : List (String × Nat)) (addresses : Addresses) (name : String) :
    (undefined.foldl (fun addresses symbol => addresses.put symbol.1 none) addresses).find name =
      if name ∈ undefined.map Prod.fst then some none else addresses.find name := by
  induction undefined generalizing addresses with
  | nil => rfl
  | cons symbol undefined ih =>
    rw [List.foldl_cons, ih, find_put, List.map_cons]
    by_cases hrest : name ∈ undefined.map Prod.fst
    · rw [if_pos hrest, if_pos (List.mem_cons_of_mem _ hrest)]
    · rw [if_neg hrest]
      by_cases hname : name = symbol.1
      · rw [if_pos hname, if_pos (hname ▸ List.mem_cons_self)]
      · rw [if_neg hname, if_neg (List.not_mem_cons_of_ne_of_not_mem hname hrest)]

theorem undefinedAddresses_tracks (undefined : List (String × Nat)) :
    Tracks (undefined.map Prod.fst) [] (undefinedAddresses undefined) := by
  refine ⟨fun name hname => ⟨none, ?_, rfl, rfl⟩, fun name hname => ?_⟩
  · rw [undefinedAddresses, find_undefinedAddresses, if_pos hname]
  · rw [undefinedAddresses, find_undefinedAddresses, if_neg hname]
    rfl

theorem Tracks.resolved {names : List String} {found : List Candidate} {addresses : Addresses}
    (h : Tracks names found addresses) {name : String} (hname : name ∈ names) :
    resolvedAddress addresses name = wantedAddress names found name := by
  obtain ⟨slot, hfind, hsums⟩ := h.inside name hname
  rw [hsums.wanted]
  unfold resolvedAddress
  rw [hfind]
  cases slot <;> rfl

section Write

variable {resolve : String → Option Nat} {bytes : Bytes} {offset address : Nat}

theorem writeSymbol_getElem? (h : offset + 24 ≤ bytes.length) {i : Nat}
    (hi : i < offset + 6 ∨ offset + 16 ≤ i) :
    (writeSymbol bytes offset address)[i]? = bytes[i]? := by
  have hfirst := length_first_field h
  rw [writeSymbol, getElem?_overwrite_outside, getElem?_overwrite_outside]
  · rw [length_encode]
    omega
  · rw [length_encode]
    omega
  · rw [length_encode, hfirst]
    omega
  · rw [length_encode]
    omega

theorem writeSymbol_fields (h : offset + 24 ≤ bytes.length) (address : Nat) :
    slice (writeSymbol bytes offset address) (offset + 6) (offset + 8) = some (encode 2 0xfff1) ∧
      slice (writeSymbol bytes offset address) (offset + 8) (offset + 16) = some (encode 8 address) := by
  have hfirst := length_first_field h
  have hlength := length_writeSymbol h address
  constructor
  · have hread : slice (overwrite bytes (offset + 6) (encode 2 0xfff1)) (offset + 6)
        (offset + 6 + (encode 2 0xfff1).length) = some (encode 2 0xfff1) := by
      apply slice_overwrite
      rw [length_encode]
      omega
    rw [length_encode] at hread
    rw [← hread]
    refine slice_congr (by omega) (by omega) fun i _ hi => ?_
    refine getElem?_overwrite_outside ?_ (Or.inl hi)
    rw [length_encode, hfirst]
    omega
  · have hread : slice (writeSymbol bytes offset address) (offset + 8)
        (offset + 8 + (encode 8 address).length) =
        some (encode 8 address) := by
      apply slice_overwrite
      rw [length_encode, hfirst]
      omega
    rw [length_encode] at hread
    exact hread

/-- The bytes which the symbols do not name stay. -/
theorem applySymbols_getElem? {undefined : List (String × Nat)} {acc : Bytes × Nat}
    (hle : ∀ symbol ∈ undefined, symbol.2 + 24 ≤ acc.1.length) {i : Nat}
    (hi : ∀ symbol ∈ undefined, resolve symbol.1 = none ∨ i < symbol.2 + 6 ∨ symbol.2 + 16 ≤ i) :
    (applySymbols resolve undefined acc).1[i]? = acc.1[i]? := by
  induction undefined generalizing acc with
  | nil => rfl
  | cons symbol undefined ih =>
    have hhead := hle symbol List.mem_cons_self
    have hlength : (applySymbol resolve acc symbol).1.length = acc.1.length := length_applySymbol hhead
    have hone : (applySymbol resolve acc symbol).1[i]? = acc.1[i]? := by
      unfold applySymbol
      rcases hi symbol List.mem_cons_self with hnone | hout
      · rw [hnone]
      · cases resolve symbol.1 with
        | none => rfl
        | some address => exact writeSymbol_getElem? hhead hout
    have hrest := ih (fun s hs => hlength.symm ▸ hle s (List.mem_cons_of_mem _ hs))
      fun s hs => hi s (List.mem_cons_of_mem _ hs)
    exact hrest.trans hone

theorem applySymbols_fields {undefined : List (String × Nat)} {acc : Bytes × Nat}
    (hapart : undefined.Pairwise Apart)
    (hle : ∀ symbol ∈ undefined, symbol.2 + 24 ≤ acc.1.length) {symbol : String × Nat}
    (hs : symbol ∈ undefined)
    (ha : resolve symbol.1 = some address) :
    slice (applySymbols resolve undefined acc).1 (symbol.2 + 6) (symbol.2 + 8) = some (encode 2 0xfff1) ∧
      slice (applySymbols resolve undefined acc).1 (symbol.2 + 8) (symbol.2 + 16) =
        some (encode 8 address) := by
  induction undefined generalizing acc with
  | nil => exact absurd hs List.not_mem_nil
  | cons first undefined ih =>
    obtain ⟨hfirst, hapart⟩ := List.pairwise_cons.mp hapart
    have hhead := hle first List.mem_cons_self
    have hlength : (applySymbol resolve acc first).1.length = acc.1.length := length_applySymbol hhead
    have hrest : ∀ s ∈ undefined, s.2 + 24 ≤ (applySymbol resolve acc first).1.length :=
      fun s hs => hlength.symm ▸ hle s (List.mem_cons_of_mem _ hs)
    rcases List.mem_cons.mp hs with rfl | hs
    · have hwritten : (applySymbol resolve acc symbol).1 = writeSymbol acc.1 symbol.2 address := by
        unfold applySymbol
        rw [ha]
      have hfields := writeSymbol_fields hhead address
      have hkeep : ∀ i, symbol.2 ≤ i → i < symbol.2 + 24 →
          (applySymbols resolve (symbol :: undefined) acc).1[i]? =
            (writeSymbol acc.1 symbol.2 address)[i]? := by
        intro i hlow hhigh
        rw [← hwritten]
        refine applySymbols_getElem? hrest fun s hs => Or.inr ?_
        have happ := hfirst s hs
        simp only [Apart] at happ
        omega
      have htotal : (applySymbols resolve (symbol :: undefined) acc).1.length = acc.1.length :=
        length_applySymbols hle
      have hwlength := length_writeSymbol hhead address
      rw [← hfields.1, ← hfields.2]
      exact ⟨slice_congr (by omega) (by omega) fun i h1 h2 => hkeep i (by omega) (by omega),
        slice_congr (by omega) (by omega) fun i h1 h2 => hkeep i (by omega) (by omega)⟩
    · exact ih hapart hrest hs

theorem applySymbols_count {undefined : List (String × Nat)} {acc : Bytes × Nat} :
    (applySymbols resolve undefined acc).2 = acc.2 + undefined.countP fun symbol =>
    (resolve symbol.1).isSome := by
  induction undefined generalizing acc with
  | nil => rfl
  | cons symbol undefined ih =>
    have hstep : applySymbols resolve (symbol :: undefined) acc = applySymbols resolve undefined
      (applySymbol resolve acc symbol) := rfl
    rw [hstep, ih, List.countP_cons]
    unfold applySymbol
    cases resolve symbol.1 with
    | none => rfl
    | some address =>
      simp only [Option.isSome_some, if_true]
      omega

theorem applySymbols_congr {resolve' : String → Option Nat} {undefined : List (String × Nat)}
    (h : ∀ symbol ∈ undefined, resolve symbol.1 = resolve' symbol.1) (acc : Bytes × Nat) :
    applySymbols resolve undefined acc = applySymbols resolve' undefined acc := by
  refine List.foldl_ext _ _ _ fun acc symbol hs => ?_
  unfold applySymbol
  rw [h symbol hs]

end Write

/-- What a listing says about the undefined symbols of an image. -/
def ModuleImage.wanted (image : ModuleImage) (texts : List String) (name : String) : Option Nat :=
  wantedAddress (image.undefined.map Prod.fst) (texts.filterMap candidate) name

/-- An image whose undefined symbols have been given their addresses. -/
structure Resolved (image : ModuleImage) (texts : List String) (image' : ModuleImage)
    (count : Nat) : Prop where
  resolved : ∀ symbol ∈ image.undefined, ∀ address, image.wanted texts symbol.1 = some address →
    slice image'.bytes (symbol.2 + 6) (symbol.2 + 8) = some (encode 2 0xfff1) ∧
      (slice image'.bytes (symbol.2 + 8) (symbol.2 + 16)).map decode = some address
  unresolved : ∀ symbol ∈ image.undefined, image.wanted texts symbol.1 = none →
    slice image'.bytes symbol.2 (symbol.2 + 24) = slice image.bytes symbol.2 (symbol.2 + 24)
  unchanged : ∀ i, (∀ symbol ∈ image.undefined, image.wanted texts symbol.1 = none ∨ i < symbol.2 + 6 ∨
    symbol.2 + 16 ≤ i) →
    image'.bytes[i]? = image.bytes[i]?
  counted : count = image.undefined.countP fun symbol => (image.wanted texts symbol.1).isSome

theorem withBytes_congr (image : ModuleImage) {applied applied' : Bytes × Nat} (h : applied = applied')
    (hlength : applied.1.length = image.bytes.length) :
    (image.withBytes applied.1 hlength, applied.2) =
    (image.withBytes applied'.1 (h ▸ hlength), applied'.2) := by
  subst h
  rfl

theorem resolveSymbols_eq (image : ModuleImage) (texts : List String) :
    image.resolveSymbols (texts.map .ok) =
      .ok (image.withBytes (applySymbols (image.wanted texts) image.undefined (image.bytes, 0)).1
        (length_applySymbols image.undefined_le),
          (applySymbols (image.wanted texts) image.undefined (image.bytes, 0)).2) := by
  obtain ⟨final, hread, htracks⟩ := readKallsyms_tracks texts (undefinedAddresses_tracks image.undefined)
  rw [List.nil_append] at htracks
  have hresolve : ∀ symbol ∈ image.undefined, resolvedAddress final symbol.1 = image.wanted texts symbol.1 :=
    fun symbol hs => htracks.resolved (List.mem_map_of_mem hs)
  have hsame := applySymbols_congr hresolve (image.bytes, 0)
  unfold ModuleImage.resolveSymbols
  rw [hread]
  exact congrArg Except.ok (withBytes_congr image hsame _)

theorem wanted_lt {image : ModuleImage} {texts : List String} {name : String} {address : Nat}
    (h : image.wanted texts name = some address) : address < 2 ^ 64 := by
  have hcandidate : ∃ found ∈ texts.filterMap candidate, found.address = address := by
    unfold ModuleImage.wanted wantedAddress at h
    by_cases hexact : exactAddresses (texts.filterMap candidate) name = []
    · rw [if_pos hexact, uniqueAddress_eq_some] at h
      obtain ⟨found, hfound, ha⟩ := List.mem_map.mp h.1
      exact ⟨found, (List.mem_filter.mp hfound).1, ha⟩
    · rw [if_neg hexact, uniqueAddress_eq_some] at h
      obtain ⟨found, hfound, ha⟩ := List.mem_map.mp h.1
      exact ⟨found, (List.mem_filter.mp hfound).1, ha⟩
  obtain ⟨found, hfound, rfl⟩ := hcandidate
  obtain ⟨line, -, hline⟩ := List.mem_filterMap.mp hfound
  exact (candidate_address hline).2

theorem resolved_of_applied (image : ModuleImage) (texts : List String) :
    Resolved image texts
      (image.withBytes (applySymbols (image.wanted texts) image.undefined (image.bytes, 0)).1
      (length_applySymbols image.undefined_le))
      (applySymbols (image.wanted texts) image.undefined (image.bytes, 0)).2 := by
  let applied := applySymbols (image.wanted texts) image.undefined (image.bytes, 0)
  have hlength : applied.1.length = image.bytes.length := length_applySymbols image.undefined_le
  have hunchanged : ∀ i, (∀ symbol ∈ image.undefined,
      image.wanted texts symbol.1 = none ∨ i < symbol.2 + 6 ∨ symbol.2 + 16 ≤ i) →
        applied.1[i]? = image.bytes[i]? :=
    fun i hi => applySymbols_getElem? image.undefined_le hi
  refine ⟨fun symbol hs address ha => ?_, fun symbol hs hnone => ?_, hunchanged, ?_⟩
  · have hfields : slice applied.1 (symbol.2 + 6) (symbol.2 + 8) = some (encode 2 0xfff1) ∧
        slice applied.1 (symbol.2 + 8) (symbol.2 + 16) = some (encode 8 address) :=
      applySymbols_fields image.undefined_apart image.undefined_le hs ha
    have hlt := wanted_lt ha
    refine ⟨hfields.1, ?_⟩
    change (slice applied.1 (symbol.2 + 8) (symbol.2 + 16)).map decode = some address
    rw [hfields.2, Option.map_some, decode_encode_of_lt (by omega)]
  · have hle := image.undefined_le symbol hs
    have hsymm : Std.Symm Apart := ⟨fun _ _ h => h.symm⟩
    refine slice_congr (by change _ ≤ applied.1.length; omega) hle fun i hlow hhigh => hunchanged i
      fun other ho => ?_
    by_cases heq : other = symbol
    · exact Or.inl (heq ▸ hnone)
    · have happ := image.undefined_apart.forall ho hs heq
      simp only [Apart] at happ
      omega
  · change applied.2 = _
    rw [applySymbols_count, Nat.zero_add]

/-- Every readable listing resolves exactly the symbols with one wanted address, and any other order
of its lines gives the same image. -/
theorem resolve_symbols_order_independent (image : ModuleImage) (texts : List String) :
    (∃ image' count, image.resolveSymbols (texts.map .ok) = .ok (image', count) ∧
      Resolved image texts image' count) ∧
      ∀ texts' : List String, texts'.Perm texts →
        image.resolveSymbols (texts'.map .ok) = image.resolveSymbols (texts.map .ok) := by
  refine ⟨⟨_, _, resolveSymbols_eq image texts, resolved_of_applied image texts⟩, fun texts' hperm => ?_⟩
  have hwanted : image.wanted texts' = image.wanted texts := by
    funext name
    exact wantedAddress_perm (hperm.filterMap candidate) _ name
  rw [resolveSymbols_eq, resolveSymbols_eq, hwanted]

/-- The address which a name would have if every suffix counted, wherever it starts. -/
def anySuffixAddress (names : List String) (found : List Candidate) (name : String) : Option Nat :=
  if exactAddresses found name = [] then
    uniqueAddress ((found.filter fun c => c.name ∉ names ∧
      ((name ++ ".llvm.").toList <+: c.name.toList ∨ (name ++ "$").toList <+: c.name.toList)).map
        Candidate.address)
  else uniqueAddress (exactAddresses found name)

def symbolModule : ModuleImage where
  bytes := List.replicate 88 0
  name := "m"
  vermagic := "5"
  modinfoHeader := 0
  modinfoAlignment := 1
  modinfo := []
  undefined := [("foo", 64)]
  header_le := by decide
  alignment_power := by decide
  alignment_le := by decide
  undefined_le := by decide
  undefined_apart := List.pairwise_singleton _ _

/-- A name which has both suffixes is cut at the later one. -/
theorem later_suffix_unresolved :
    anySuffixAddress ["foo"] (["1000 t foo$x.llvm.1"].filterMap candidate) "foo" = some 0x1000 ∧
      (symbolModule.resolveSymbols [.ok "1000 t foo$x.llvm.1"]).map Prod.snd = .ok 0 := by
  decide +kernel

end Lkm

end HybridMount
