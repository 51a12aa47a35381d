import HybridMount.ModuleImage
import HybridMount.Text

/-! What a patched module image holds: the metadata which its section header describes has the
wanted vermagic, and everything else is as it was. -/

namespace HybridMount

open LittleEndian

namespace Lkm

theorem zero_notMem_metadataEntries {modinfo entry : Bytes} (h : entry ∈ metadataEntries modinfo) :
    (0 : UInt8) ∉ entry := by
  induction modinfo generalizing entry with
  | nil =>
    rw [metadataEntries, List.splitOn_nil, List.mem_singleton] at h
    rw [h]
    exact List.not_mem_nil
  | cons byte modinfo ih =>
    rw [metadataEntries, List.splitOn_cons_eq_if_modifyHead] at h
    by_cases hz : byte = 0
    · rw [if_pos (beq_iff_eq.mpr hz), List.mem_cons] at h
      rcases h with rfl | h
      · exact List.not_mem_nil
      · exact ih h
    · rw [if_neg (by rwa [beq_iff_eq])] at h
      cases hs : List.splitOn 0 modinfo with
      | nil => exact absurd hs (List.splitOn_ne_nil 0 modinfo)
      | cons first rest =>
        rw [hs, List.modifyHead_cons, List.mem_cons] at h
        rcases h with rfl | h
        · have hfirst : (0 : UInt8) ∉ first := ih (by rw [metadataEntries, hs]; exact List.mem_cons_self)
          exact List.not_mem_cons_of_ne_of_not_mem (Ne.symm hz) hfirst
        · exact ih (by rw [metadataEntries, hs]; exact List.mem_cons_of_mem _ h)

theorem invalid_of_zero {required : String} (h : invalidVermagic required = false) :
    (0 : UInt8) ∉ utf8 required := by
  intro hz
  have hany : ((utf8 required).any fun byte => byte = 0 || byte = 0x0A) = true :=
    List.any_eq_true.mpr ⟨0, hz, rfl⟩
  rw [invalidVermagic, hany, Bool.or_true] at h
  cases h

theorem zero_notMem_vermagicEntry {required : String} (h : invalidVermagic required = false) :
    (0 : UInt8) ∉ vermagicEntry required := by
  have hprefix : (0 : UInt8) ∉ utf8 "vermagic=" := by decide +kernel
  rw [vermagicEntry, List.mem_append]
  exact fun hz => hz.elim hprefix (invalid_of_zero h)

theorem isVermagic_vermagicEntry (required : String) : isVermagic (vermagicEntry required) = true :=
  List.isPrefixOf_iff_prefix.mpr (List.prefix_append _ _)

theorem vermagicEntry_ne_nil (required : String) : vermagicEntry required ≠ [] := by
  have hprefix : utf8 "vermagic=" ≠ [] := by decide +kernel
  exact fun h => hprefix (List.append_eq_nil_iff.mp h).1

/-- The entries of the patched metadata: those which stay, and the new one. -/
theorem namedEntries_patchedMetadata (modinfo : Bytes) {required : String}
    (h : invalidVermagic required = false) :
    namedEntries (patchedMetadata modinfo required) =
      (namedEntries modinfo).filter (!isVermagic ·) ++ [vermagicEntry required] := by
  let kept := (namedEntries modinfo).filter (!isVermagic ·)
  have hshape : patchedMetadata modinfo required = (kept ++ [vermagicEntry required]).flatMap (· ++ [0]) := by
    rw [List.flatMap_append, List.flatMap_singleton]
    rfl
  have hkept : ∀ entry ∈ kept, (0 : UInt8) ∉ entry ∧ entry ≠ [] := by
    intro entry he
    obtain ⟨hnamed, -⟩ := List.mem_filter.mp he
    obtain ⟨hentry, hne⟩ := List.mem_filter.mp hnamed
    exact ⟨zero_notMem_metadataEntries hentry, of_decide_eq_true hne⟩
  have hall : ∀ entry ∈ kept ++ [vermagicEntry required], (0 : UInt8) ∉ entry ∧ entry ≠ [] := by
    intro entry he
    rcases List.mem_append.mp he with he | he
    · exact hkept entry he
    · rw [List.mem_singleton.mp he]
      exact ⟨zero_notMem_vermagicEntry h, vermagicEntry_ne_nil required⟩
  have hfilter : (kept ++ [vermagicEntry required]).filter (· ≠ []) = kept ++ [vermagicEntry required] :=
    List.filter_eq_self.mpr fun entry he => decide_eq_true (hall entry he).2
  rw [namedEntries, hshape, metadataEntries, Text.splitOn_terminated fun entry he => (hall entry he).1,
    List.filter_append, hfilter]
  exact List.append_nil _

section Relink

variable {bytes : Bytes} {header : Nat}

theorem length_first (h : header + 64 ≤ bytes.length) (metadata : Bytes) :
    (overwrite (bytes ++ metadata) (header + 24) (encode 8 bytes.length)).length = bytes.length +
    metadata.length := by
  rw [length_overwrite, List.length_append]
  rw [length_encode, List.length_append]
  omega

variable {metadata : Bytes}

theorem relink_getElem? (h : header + 64 ≤ bytes.length) {i : Nat} (hi : i < header + 24 ∨ header + 40 ≤ i) :
    (relink bytes header metadata)[i]? = (bytes ++ metadata)[i]? := by
  have hfirst := length_first h metadata
  rw [relink, getElem?_overwrite_outside, getElem?_overwrite_outside]
  · rw [length_encode, List.length_append]
    omega
  · rw [length_encode]
    omega
  · rw [length_encode, hfirst]
    omega
  · rw [length_encode]
    omega

theorem relink_offset (h : header + 64 ≤ bytes.length) :
    slice (relink bytes header metadata) (header + 24) (header + 32) = some (encode 8 bytes.length) := by
  have hlength := length_relink h metadata
  have hfirst := length_first h metadata
  have hread : slice (overwrite (bytes ++ metadata) (header + 24) (encode 8 bytes.length)) (header + 24)
      (header + 24 + (encode 8 bytes.length).length) = some (encode 8 bytes.length) := by
    apply slice_overwrite
    rw [length_encode, List.length_append]
    omega
  rw [length_encode] at hread
  rw [← hread]
  refine slice_congr (by omega) (by omega) fun i _ hi => ?_
  refine getElem?_overwrite_outside ?_ (Or.inl hi)
  rw [length_encode, hfirst]
  omega

theorem relink_size (h : header + 64 ≤ bytes.length) :
    slice (relink bytes header metadata) (header + 32) (header + 40) = some (encode 8 metadata.length) := by
  have hfirst := length_first h metadata
  have hread : slice (relink bytes header metadata) (header + 32)
      (header + 32 + (encode 8 metadata.length).length) =
      some (encode 8 metadata.length) := by
    apply slice_overwrite
    rw [length_encode, hfirst]
    omega
  rw [length_encode] at hread
  exact hread

theorem relink_metadata (h : header + 64 ≤ bytes.length) :
    slice (relink bytes header metadata) bytes.length (bytes.length + metadata.length) = some metadata := by
  have hlength := length_relink h metadata
  have hwhole : slice (bytes ++ metadata) bytes.length (bytes.length + metadata.length) = some metadata := by
    have happend := slice_append bytes metadata []
    rwa [List.append_nil] at happend
  rw [← hwhole]
  refine slice_congr (by omega) (by rw [List.length_append]) fun i hi _ =>
    relink_getElem? h (Or.inr (by omega))

end Relink

/-- A field of the section header of the metadata. -/
def headerField (image : ModuleImage) (offset : Nat) : Option Nat :=
  (slice image.bytes (image.modinfoHeader + offset) (image.modinfoHeader + offset + 8)).map decode

/-- The section of the metadata as its header describes it, and where it starts. -/
def describedModinfo (image : ModuleImage) : Option (Nat × Bytes) := do
  let start ← headerField image 24
  let size ← headerField image 32
  let part ← slice image.bytes start (start + size)
  return (start, part)

/-- A patched image in comparison with the image before it and the one which was read. -/
structure Patched (image old new : ModuleImage) (required : String) : Prop where
  header_eq : new.modinfoHeader = image.modinfoHeader
  described : ∃ start part, describedModinfo new = some (start, part) ∧
    start + part.length ≤ new.bytes.length ∧
    image.modinfoAlignment ∣ start ∧
    (namedEntries part).filter isVermagic = [vermagicEntry required] ∧
    (namedEntries part).filter (!isVermagic ·) = (namedEntries image.modinfo).filter (!isVermagic ·)
  unchanged : ∀ i < old.bytes.length, i < image.modinfoHeader + 24 ∨ image.modinfoHeader + 40 ≤ i →
    new.bytes[i]? = old.bytes[i]?

variable {image : ModuleImage} {required : String}

/-- A patch succeeds for every acceptable string, as long as the image can grow. -/
theorem patchVermagic_ok (hvalid : invalidVermagic required = false)
    (hsum : image.bytes.length + (image.modinfoAlignment - 1) ≤ usizeMax)
    (hroom : alignUp image.modinfoAlignment (image.bytes.length + (image.modinfoAlignment - 1)) +
      (patchedMetadata image.modinfo required).length ≤ isizeMax) :
    ∃ new, image.patchVermagic required = .ok new := by
  unfold ModuleImage.patchVermagic
  rw [if_neg (by rw [hvalid]; decide)]
  dsimp only
  rw [dif_pos hsum, if_pos hroom]
  exact ⟨_, rfl⟩

/-- What a patch that succeeds has made of the image. -/
theorem patchVermagic_eq {new : ModuleImage} (h : image.patchVermagic required = .ok new) :
    invalidVermagic required = false ∧
    ∃ start, image.bytes.length ≤ start ∧ image.modinfoAlignment ∣ start ∧
      start + (patchedMetadata image.modinfo required).length ≤ isizeMax ∧
      new.bytes = relink (resize image.bytes start) image.modinfoHeader
        (patchedMetadata image.modinfo required) ∧
      new.modinfoHeader = image.modinfoHeader ∧ new.modinfoAlignment = image.modinfoAlignment ∧
      new.modinfo = image.modinfo := by
  unfold ModuleImage.patchVermagic at h
  cases hvalid : invalidVermagic required with
  | true =>
    rw [if_pos hvalid] at h
    cases h
  | false =>
    rw [if_neg (by rw [hvalid]; decide)] at h
    dsimp only at h
    by_cases hsum : image.bytes.length + (image.modinfoAlignment - 1) ≤ usizeMax
    · rw [dif_pos hsum] at h
      have hspec := alignUp_le image.alignment_power image.alignment_max hsum
      by_cases hroom : alignUp image.modinfoAlignment (image.bytes.length + (image.modinfoAlignment - 1)) +
          (patchedMetadata image.modinfo required).length ≤ isizeMax
      · rw [if_pos hroom] at h
        cases h
        exact ⟨rfl, _, hspec.1, hspec.2.1, hroom, rfl, rfl, rfl, rfl⟩
      · rw [if_neg hroom] at h
        cases h
    · rw [dif_neg hsum] at h
      cases h

theorem getElem?_resize {bytes : Bytes} {length i : Nat} (h : bytes.length ≤ length) (hi : i < bytes.length) :
    (resize bytes length)[i]? = bytes[i]? := by
  rw [resize, List.take_of_length_le h, List.getElem?_append_left hi]

/-- Images of one module, which differ in their bytes and their vermagic. -/
structure SameModule (image other : ModuleImage) : Prop where
  header_eq : other.modinfoHeader = image.modinfoHeader
  alignment_eq : other.modinfoAlignment = image.modinfoAlignment
  modinfo_eq : other.modinfo = image.modinfo

theorem patched {old new : ModuleImage} (hsame : SameModule image old)
    (h : old.patchVermagic required = .ok new) :
    Patched image old new required := by
  obtain ⟨hvalid, start, hstart, hdvd, hroom, hbytes, hheader, -, -⟩ := patchVermagic_eq h
  rw [hsame.modinfo_eq] at hroom hbytes
  let metadata := patchedMetadata image.modinfo required
  have hmetadata : start + metadata.length ≤ isizeMax := hroom
  have hresize : (resize old.bytes start).length = start := length_resize hstart
  have hin : old.modinfoHeader + 64 ≤ (resize old.bytes start).length := by
    rw [hresize]
    exact Nat.le_trans old.header_le hstart
  have hlength := length_relink hin metadata
  have hword : ∀ n ≤ isizeMax, decode (encode 8 n) = n := by
    intro n hn
    simp only [isizeMax] at hn
    exact decode_encode_of_lt (by omega)
  have hoffset : headerField new 24 = some start := by
    have hread : slice new.bytes (old.modinfoHeader + 24) (old.modinfoHeader + 24 + 8) = _ :=
      hbytes ▸ relink_offset hin
    rw [headerField, hheader, hread, Option.map_some, hresize, hword start (by omega)]
  have hsize : headerField new 32 = some metadata.length := by
    have hread : slice new.bytes (old.modinfoHeader + 32) (old.modinfoHeader + 32 + 8) = _ :=
      hbytes ▸ relink_size hin
    rw [headerField, hheader, hread, Option.map_some, hword metadata.length (by omega)]
  have hpart : slice new.bytes start (start + metadata.length) = some metadata := by
    have hread : slice (relink (resize old.bytes start) old.modinfoHeader metadata) _ _ = some metadata :=
      relink_metadata hin
    rw [hresize] at hread
    rw [hbytes]
    exact hread
  have hentries := namedEntries_patchedMetadata image.modinfo hvalid
  have hkept : ((namedEntries image.modinfo).filter (!isVermagic ·)).filter isVermagic = [] := by
    rw [List.filter_filter]
    refine List.filter_eq_nil_iff.mpr fun entry _ => ?_
    cases isVermagic entry <;> decide
  have hnew : [vermagicEntry required].filter isVermagic = [vermagicEntry required] :=
    List.filter_eq_self.mpr fun entry he => by rw [List.mem_singleton.mp he, isVermagic_vermagicEntry]
  have hnone : [vermagicEntry required].filter (!isVermagic ·) = [] := by
    refine List.filter_eq_nil_iff.mpr fun entry he => ?_
    rw [List.mem_singleton.mp he, isVermagic_vermagicEntry]
    decide
  refine ⟨hheader.trans hsame.header_eq, ⟨start, metadata, ?_, ?_, hsame.alignment_eq ▸ hdvd, ?_, ?_⟩,
    fun i hi hother => ?_⟩
  · simp only [describedModinfo, hoffset, hsize, hpart, Option.bind_eq_bind, Option.bind_some,
      Option.pure_def]
  · rw [hbytes, hlength, hresize]
  · rw [hentries, List.filter_append, hkept, hnew, List.nil_append]
  · rw [hentries, List.filter_append, hnone, List.append_nil, List.filter_filter]
    simp only [Bool.and_self]
  · rw [← hsame.header_eq] at hother
    rw [hbytes, relink_getElem? hin hother, List.getElem?_append_left (by omega), getElem?_resize hstart hi]

/-- However often an image was patched, its patches go back to the metadata of the file. -/
theorem foldlM_patchVermagic {earlier : List String} {mid : ModuleImage}
    (h : earlier.foldlM ModuleImage.patchVermagic image = .ok mid) :
    SameModule image mid := by
  induction earlier generalizing image with
  | nil =>
    cases h
    exact ⟨rfl, rfl, rfl⟩
  | cons first earlier ih =>
    rw [List.foldlM_cons] at h
    cases hfirst : image.patchVermagic first with
    | error e => rw [hfirst] at h; cases h
    | ok next =>
      rw [hfirst] at h
      obtain ⟨-, start, -, -, -, -, hheader, halign, hmodinfo⟩ := patchVermagic_eq hfirst
      have hsame := ih h
      exact ⟨hsame.header_eq.trans hheader, hsame.alignment_eq.trans halign, hsame.modinfo_eq.trans hmodinfo⟩

/-- The properties of a patch hold for the first one and for every later one. -/
theorem patch_vermagic_keeps_image (image : ModuleImage) (earlier : List String) (mid new : ModuleImage)
    (required : String) (hmid : earlier.foldlM ModuleImage.patchVermagic image = .ok mid)
    (hnew : mid.patchVermagic required = .ok new) : Patched image mid new required :=
  patched (foldlM_patchVermagic hmid) hnew

/-- A file with nothing but a section header and two entries of metadata. -/
def smallModule : ModuleImage where
  bytes := List.replicate 64 0
  name := "m"
  vermagic := "5"
  modinfoHeader := 0
  modinfoAlignment := 8
  modinfo := utf8 "name=m" ++ [0] ++ (utf8 "vermagic=5" ++ [0])
  undefined := []
  header_le := by decide
  alignment_power := by decide
  alignment_le := by decide
  undefined_le := fun _ h => absurd h List.not_mem_nil
  undefined_apart := List.Pairwise.nil

theorem patch_vermagic_keeps_small :
    ∃ mid new, smallModule.patchVermagic "6" = .ok mid ∧ mid.patchVermagic "6.1" = .ok new ∧
      Patched smallModule mid new "6.1" := by
  have hruns : ((smallModule.patchVermagic "6").bind (·.patchVermagic "6.1")).isOk = true := by decide +kernel
  cases hmid : smallModule.patchVermagic "6" with
  | error e =>
    rw [hmid] at hruns
    cases hruns
  | ok mid =>
    rw [hmid] at hruns
    change (mid.patchVermagic "6.1").isOk = true at hruns
    cases hnew : mid.patchVermagic "6.1" with
    | error e =>
      rw [hnew] at hruns
      cases hruns
    | ok new =>
      have hearlier : ["6"].foldlM ModuleImage.patchVermagic smallModule = .ok mid := by
        rw [List.foldlM_cons, hmid]
        rfl
      exact ⟨mid, new, rfl, hnew, patch_vermagic_keeps_image smallModule ["6"] mid new "6.1" hearlier hnew⟩

end Lkm

end HybridMount
