import HybridMount.CrashDisk
import HybridMount.Settings

/-! A run of commands over the configuration file, with crashes between them: what is read is what
the patches make of the first file, and no patch which was acknowledged is missing. -/

namespace HybridMount.Settings

variable {τ : Type}

/-- A command, and what the calls outside do to it. -/
inductive Command where
  | saveConfig (payload : Except Error ConfigPatch) (answer : Answer)
  | genConfig (answer : Answer)

/-- What a command means to the settings. -/
inductive Effect where
  | patch (fields : ConfigPatch)
  | reset
  | nothing

def Command.effect : Command → Effect
  | .saveConfig (.ok patch) _ => .patch patch
  | .saveConfig (.error _) _ => .nothing
  | .genConfig _ => .reset

/-- The settings are none where the file cannot be read. -/
def Effect.apply : Effect → Option (Config τ) → Option (Config τ)
  | .patch fields, settings => settings.bind fun config => (config.applyPatch fields).toOption
  | .reset, _ => some {}
  | .nothing, settings => settings

variable (toml : Toml τ)

/-- The settings a file stands for. -/
def meaning (node : Node) : Option (Config τ) :=
  match node.readToString with
  | .error .notFound => some {}
  | .error .other => none
  | .ok text => (fromToml toml text).toOption.map Config.persisted

def Command.run (command : Command) (disk : Disk) : Except Error Unit × Disk :=
  match command with
  | .saveConfig payload answer => saveConfigPayload toml answer payload disk
  | .genConfig answer => writeDefault toml answer disk

/-- The file of the configuration, which the commands replace, and the other files. -/
structure Store where
  register : CrashRegister Node
  parentIsDir : Bool
  bundled : Node
  persistent : Node

def Store.disk (s : Store) : Disk := ⟨s.register.value, s.parentIsDir, s.bundled, s.persistent⟩

/-- The register after a command: an acknowledged one has flushed what it wrote. -/
def settle (register : CrashRegister Node) (result : Except Error Unit × Disk) : CrashRegister Node :=
  if result.1.isOk then (register.write result.2.config).flush
  else if result.2.config = register.value then register
  else register.write result.2.config

def Store.after (s : Store) (command : Command) : Store :=
  { s with
    register := settle s.register (command.run toml s.disk)
    parentIsDir := (command.run toml s.disk).2.parentIsDir }

/-- The commands so far, and which of them reported success; the blacklists change at will. -/
inductive Run (node : Node) : List (Command × Bool) → Store → Prop
  | start (parentIsDir : Bool) (bundled persistent : Node) :
      Run node [] ⟨.fresh node, parentIsDir, bundled, persistent⟩
  | command {done : List (Command × Bool)} {s : Store} (h : Run node done s) (command : Command) :
      Run node (done ++ [(command, (command.run toml s.disk).1.isOk)]) (s.after toml command)
  | edit {done : List (Command × Bool)} {s : Store} (h : Run node done s) (bundled persistent : Node) :
      Run node done { s with bundled := bundled, persistent := persistent }
  | crash {done : List (Command × Bool)} {s : Store} (h : Run node done s) (found : Node)
      (hfound : found ∈ s.register.possible) :
      Run node done { s with register := .fresh found }

/-- Some of the commands in their order, with every one which reported success. -/
inductive Picked : List (Command × Bool) → List Command → Prop
  | nil : Picked [] []
  | take {done : List (Command × Bool)} {picked : List Command} (h : Picked done picked) (command : Command)
      (ok : Bool) :
      Picked (done ++ [(command, ok)]) (picked ++ [command])
  | drop {done : List (Command × Bool)} {picked : List Command} (h : Picked done picked) (command : Command) :
      Picked (done ++ [(command, false)]) picked

/-- The settings after some commands. -/
def settingsAfter (node : Node) (picked : List Command) : Option (Config τ) :=
  picked.foldl (fun settings command => command.effect.apply settings) (meaning toml node)

/-- A file which the commands so far explain. -/
def Explained (node : Node) (done : List (Command × Bool)) (found : Node) : Prop :=
  ∃ picked, Picked done picked ∧ meaning toml found = settingsAfter toml node picked

section

variable {toml : Toml τ} {disk : Disk} {config config' : Config τ}

theorem persisted_loaded (h : loadModuleBlacklists toml disk config = .ok config') :
    config'.persisted = config.persisted := by
  unfold loadModuleBlacklists at h
  cases hbundled : readModuleBlacklist toml BUNDLED_MODULE_BLACKLIST_PATH disk.bundled with
  | error err =>
    rw [hbundled] at h
    cases h
  | ok bundled =>
    cases hpersistent : readModuleBlacklist toml MODULE_BLACKLIST_PATH disk.persistent with
    | error err =>
      rw [hbundled, hpersistent] at h
      cases h
    | ok persistent =>
      rw [hbundled, hpersistent] at h
      cases h
      rfl

/-- What was read of the file is what it stands for. -/
theorem meaning_of_load (h : load toml disk = .ok config) :
    meaning toml disk.config = some config.persisted := by
  unfold load at h
  unfold meaning
  cases hread : disk.config.readToString with
  | error kind =>
    rw [hread] at h
    cases h
  | ok text =>
    rw [hread] at h
    cases hparse : fromToml toml text with
    | error err =>
      simp only [hparse] at h
      cases err <;> cases h
    | ok read =>
      simp only [hparse] at h
      simp [Except.toOption, persisted_loaded h, hparse]

theorem addBlacklisted_error {path entry : String} {blacklist : Blacklist} {err : Error}
    (h : addBlacklisted path blacklist entry = .error err) : err.isMissing = false := by
  unfold addBlacklisted at h
  simp only at h
  split at h
  · cases h
  · split at h
    · cases h
    · cases h
      rfl

theorem foldlM_error {path : String} {entries : List String} {blacklist : Blacklist} {err : Error}
    (h : entries.foldlM (addBlacklisted path) blacklist = .error err) : err.isMissing = false := by
  induction entries generalizing blacklist with
  | nil => cases h
  | cons entry rest ih =>
    rw [List.foldlM_cons] at h
    cases hadd : addBlacklisted path blacklist entry with
    | error err' =>
      rw [hadd] at h
      cases h
      exact addBlacklisted_error hadd
    | ok more =>
      rw [hadd] at h
      exact ih h

theorem readModuleBlacklist_error {path : String} {node : Node} {err : Error}
    (h : readModuleBlacklist toml path node = .error err) : err.isMissing = false := by
  unfold readModuleBlacklist at h
  cases hread : node.readToString with
  | error kind =>
    cases kind <;> rw [hread] at h <;> cases h
    rfl
  | ok text =>
    simp only [hread] at h
    cases hparse : toml.blacklist text with
    | none =>
      rw [hparse] at h
      cases h
      rfl
    | some entries =>
      rw [hparse] at h
      exact foldlM_error h

/-- A blacklist which cannot be had is no missing file. -/
theorem loadModuleBlacklists_error {err : Error} (h : loadModuleBlacklists toml disk config = .error err) :
    err.isMissing = false := by
  unfold loadModuleBlacklists at h
  cases hbundled : readModuleBlacklist toml BUNDLED_MODULE_BLACKLIST_PATH disk.bundled with
  | error err' =>
    rw [hbundled] at h
    cases h
    exact readModuleBlacklist_error hbundled
  | ok bundled =>
    cases hpersistent : readModuleBlacklist toml MODULE_BLACKLIST_PATH disk.persistent with
    | error err' =>
      rw [hbundled, hpersistent] at h
      cases h
      exact readModuleBlacklist_error hpersistent
    | ok persistent =>
      rw [hbundled, hpersistent] at h
      cases h

theorem fromToml_error {text : String} {err : Error} (h : fromToml toml text = .error err) :
    err.isMissing = false := by
  unfold fromToml at h
  cases hparse : toml.fromStr text with
  | none =>
    rw [hparse] at h
    cases h
    rfl
  | some read =>
    simp only [hparse] at h
    split at h
    · cases h
      rfl
    · cases h

theorem missing_of_load {err : Error} (h : load toml disk = .error err) (hmissing : err.isMissing = true) :
    meaning toml disk.config = some {} := by
  unfold load at h
  unfold meaning
  cases hread : disk.config.readToString with
  | error kind =>
    rw [hread] at h
    cases h
    cases kind with
    | notFound => rfl
    | other => cases hmissing
  | ok text =>
    simp only [hread] at h
    have hnot : err.isMissing = false := by
      cases hparse : fromToml toml text with
      | error err' =>
        have hno := fromToml_error hparse
        simp only [hparse] at h
        cases err' <;> cases h <;> first | rfl | exact hno
      | ok read =>
        simp only [hparse] at h
        exact loadModuleBlacklists_error h
    rw [hnot] at hmissing
    cases hmissing

theorem meaning_of_loadAllowingMissing {strict : Bool}
    (h : loadAllowingMissing toml disk strict = .ok config) :
    meaning toml disk.config = some config.persisted := by
  unfold loadAllowingMissing at h
  cases hload : load toml disk with
  | ok read =>
    rw [hload] at h
    rw [← Except.ok.inj h, meaning_of_load hload]
    rfl
  | error err =>
    simp only [hload] at h
    split at h
    · rename_i hcond
      rw [Bool.and_eq_true] at hcond
      rw [missing_of_load hload hcond.1, persisted_loaded h]
      rfl
    · cases h

theorem persisted_applyPatch {patch : ConfigPatch} (h : config.applyPatch patch = .ok config') :
    config.persisted.applyPatch patch = .ok config'.persisted := by
  unfold Config.applyPatch at h ⊢
  split at h
  · cases h
  · rename_i hmode
    cases h
    rw [if_neg hmode]
    rfl

/-- What is saved is what the file stands for afterwards. -/
theorem meaning_of_save (hround : toml.RoundTrip) (answer : Answer) :
    ((save toml answer config disk).1.isOk = false ∧ (save toml answer config disk).2.config = disk.config) ∨
      meaning toml (save toml answer config disk).2.config = some config.persisted := by
  unfold save
  split
  · exact .inl ⟨rfl, rfl⟩
  · rename_i hmode
    have hwritten : ∀ text, toml.toStringPretty config = some text →
        meaning toml (.regular (some text)) = some config.persisted := by
      intro text htext
      have hparse : fromToml toml text = .ok config.persisted := by
        unfold fromToml
        rw [hround config text htext]
        exact if_neg hmode
      simp only [meaning, Node.readToString, hparse]
      rfl
    split
    · exact .inl ⟨rfl, rfl⟩
    · exact .inl ⟨rfl, rfl⟩
    · cases htext : toml.toStringPretty config with
      | none => cases answer <;> exact .inl ⟨rfl, rfl⟩
      | some text =>
        cases answer with
        | noDirectory => exact .inl ⟨rfl, rfl⟩
        | unwritten => exact .inl ⟨rfl, rfl⟩
        | unsynced => exact .inr (hwritten text htext)
        | written => exact .inr (hwritten text htext)

/-- A command leaves the file alone and says so, or does to the settings what it means. -/
theorem meaning_of_run (hround : toml.RoundTrip) (command : Command) :
    ((command.run toml disk).1.isOk = false ∧ (command.run toml disk).2.config = disk.config) ∨
      meaning toml (command.run toml disk).2.config = command.effect.apply (meaning toml disk.config) := by
  cases command with
  | genConfig answer => exact meaning_of_save hround answer
  | saveConfig payload answer =>
    cases payload with
    | error err => exact .inl ⟨rfl, rfl⟩
    | ok patch =>
      simp only [Command.run, saveConfigPayload, Command.effect, Effect.apply]
      cases hload : loadAllowingMissing toml disk false with
      | error err => exact .inl ⟨rfl, rfl⟩
      | ok config =>
        rw [meaning_of_loadAllowingMissing hload]
        simp only
        cases hpatch : config.applyPatch patch with
        | error err => exact .inl ⟨rfl, rfl⟩
        | ok config' =>
          rw [Option.bind_some, persisted_applyPatch hpatch]
          exact meaning_of_save hround answer

/-- A file which is no configuration is left as it is. -/
theorem run_unreadable (hnone : meaning toml disk.config = none) (payload : Except Error ConfigPatch)
    (answer : Answer) :
    (saveConfigPayload toml answer payload disk).1.isOk = false ∧
    (saveConfigPayload toml answer payload disk).2 = disk := by
  cases payload with
  | error err => exact ⟨rfl, rfl⟩
  | ok patch =>
    unfold saveConfigPayload
    cases hload : loadAllowingMissing toml disk false with
    | error err => exact ⟨rfl, rfl⟩
    | ok config =>
      rw [meaning_of_loadAllowingMissing hload] at hnone
      cases hnone

end

section

variable {toml : Toml τ} {node : Node} {done : List (Command × Bool)} {s : Store}

theorem Explained.take {found found' : Node} (h : Explained toml node done found)
    (command : Command) (ok : Bool)
    (hmeaning : meaning toml found' = command.effect.apply (meaning toml found)) :
    Explained toml node (done ++ [(command, ok)]) found' := by
  obtain ⟨picked, hpicked, heq⟩ := h
  refine ⟨picked ++ [command], hpicked.take command ok, ?_⟩
  rw [settingsAfter, List.foldl_append, hmeaning, heq]
  rfl

theorem Explained.drop {found : Node} (h : Explained toml node done found) (command : Command) :
    Explained toml node (done ++ [(command, false)]) found := by
  obtain ⟨picked, hpicked, heq⟩ := h
  exact ⟨picked, hpicked.drop command, heq⟩

theorem settle_explained (hround : toml.RoundTrip) (h : s.register.Always (Explained toml node done))
    (command : Command) :
    (s.after toml command).register.Always
    (Explained toml node (done ++ [(command, (command.run toml s.disk).1.isOk)])) := by
  have hcase := @meaning_of_run τ toml s.disk hround command
  change (settle s.register (command.run toml s.disk)).Always _
  unfold settle
  cases hok : (command.run toml s.disk).1.isOk with
  | true =>
    rw [if_pos rfl]
    rcases hcase with ⟨hfalse, -⟩ | hmeaning
    · rw [hok] at hfalse
      cases hfalse
    · exact .fresh (h.value.take command true hmeaning)
  | false =>
    rw [if_neg Bool.false_ne_true]
    have hdropped := h.imp fun v hv => hv.drop command
    split
    · exact hdropped
    · rename_i hchanged
      rcases hcase with ⟨-, hsame⟩ | hmeaning
      · exact absurd hsame hchanged
      · exact hdropped.write (h.value.take command false hmeaning)

theorem Run.explained (hround : toml.RoundTrip) (h : Run toml node done s) :
    s.register.Always (Explained toml node done) := by
  induction h with
  | start parentIsDir bundled persistent => exact .fresh ⟨[], .nil, rfl⟩
  | command _ command ih => exact settle_explained hround ih command
  | edit _ bundled persistent ih => exact ih
  | crash _ found hfound ih => exact ih.crash hfound

/-- No patch makes defaults of a file which is no configuration. -/
theorem Run.unreadable (h : Run toml node done s) (hnone : meaning toml node = none)
    (hpatches : ∀ entry ∈ done, ∀ answer, entry.1 ≠ .genConfig answer) : s.register.Always (· = node) := by
  induction h with
  | start parentIsDir bundled persistent => exact .fresh rfl
  | @command done s hrun command ih =>
    have hbefore := ih fun entry hentry => hpatches entry (List.mem_append_left _ hentry)
    cases command with
    | genConfig answer =>
      exact absurd rfl (hpatches _ (List.mem_append_right _ (List.mem_singleton.mpr rfl)) answer)
    | saveConfig payload answer =>
      have hdisk : meaning toml s.disk.config = none := by
        rw [← hnone]
        exact congrArg _ hbefore.value
      obtain ⟨hok, hsame⟩ := run_unreadable hdisk payload answer
      have hsettle : settle s.register ((Command.saveConfig payload answer).run toml s.disk) =
          s.register := by
        unfold settle
        have hvalue : s.disk.config = s.register.value := rfl
        simp only [Command.run, hok, hsame]
        rw [if_neg Bool.false_ne_true, if_pos hvalue]
      change (settle s.register _).Always _
      rw [hsettle]
      exact hbefore
  | edit _ bundled persistent ih => exact ih hpatches
  | crash _ found hfound ih => exact (ih hpatches).crash hfound

/-- A boot sees the patches of the run, all which reported success among them, and never settings
in the place of a file which is none. -/
theorem boot_reads_saved (hround : toml.RoundTrip) (h : Run toml node done s) :
    (∀ config, loadForBoot toml s.disk = .ok config →
        ∃ picked, Picked done picked ∧ settingsAfter toml node picked = some config.persisted) ∧
      (meaning toml node = none → (∀ entry ∈ done, ∀ answer, entry.1 ≠ .genConfig answer) →
        s.register.value = node ∧ ∀ config, loadForBoot toml s.disk ≠ .ok config) := by
  refine ⟨fun config hload => ?_, fun hnone hpatches =>
    ⟨(h.unreadable hnone hpatches).value, fun config hload => ?_⟩⟩
  · obtain ⟨picked, hpicked, heq⟩ := (h.explained hround).value
    refine ⟨picked, hpicked, ?_⟩
    rw [← heq]
    exact meaning_of_loadAllowingMissing hload
  · have hmeaning : meaning toml s.disk.config = some config.persisted := meaning_of_loadAllowingMissing hload
    have hvalue : s.disk.config = node := (h.unreadable hnone hpatches).value
    rw [hvalue, hnone] at hmeaning
    cases hmeaning

end

/-- The defaults but for two fields. -/
def plain (overlayMode : OverlayMode) (disableUmount : Bool) : Config Unit :=
  { overlayMode := overlayMode, disableUmount := disableUmount }

/-- The fields at their defaults are left out. -/
def plainText : OverlayMode → Bool → String
  | .ext4, false => "overlay_mode = \"ext4\"\ndisable_umount = false\n"
  | .ext4, true => "overlay_mode = \"ext4\"\ndisable_umount = true\n"
  | .tmpfs, false => "overlay_mode = \"tmpfs\"\ndisable_umount = false\n"
  | .tmpfs, true => "overlay_mode = \"tmpfs\"\ndisable_umount = true\n"

def isPlain (config : Config Unit) : Bool :=
  config.moduledir = "/data/adb/modules" && config.defaultMode = .overlay && config.extraMount = [] &&
    !config.vfsStrict &&
    config.vfsIsolateUids = [] && config.rules.entries.isEmpty

def plainTexts : List (String × Config Unit) :=
  [(plainText .ext4 false, plain .ext4 false), (plainText .ext4 true, plain .ext4 true),
    (plainText .tmpfs false, plain .tmpfs false),
    (plainText .tmpfs true, plain .tmpfs true)]

/-- A serializer which knows these configurations only. -/
def plainToml : Toml Unit where
  fromStr text := (plainTexts.find? fun entry => entry.1 = text).map Prod.snd
  toStringPretty config := if isPlain config = true
    then some (plainText config.overlayMode config.disableUmount) else none
  blacklist _ := some []

theorem persisted_of_isPlain {config : Config Unit} (h : isPlain config = true) :
    config.persisted = plain config.overlayMode config.disableUmount := by
  obtain ⟨moduledir, overlayMode, disableUmount, defaultMode, extraMount, vfsStrict, vfsIsolateUids, rules⟩ :=
    config
  simp only [isPlain, Bool.and_eq_true, decide_eq_true_eq, Bool.not_eq_true', List.isEmpty_iff] at h
  obtain ⟨⟨⟨⟨⟨rfl, rfl⟩, rfl⟩, rfl⟩, rfl⟩, hrules⟩ := h
  obtain ⟨entries, sorted⟩ := rules
  cases hrules
  rfl

theorem fromStr_plainText (overlayMode : OverlayMode) (disableUmount : Bool) :
    plainToml.fromStr (plainText overlayMode disableUmount) = some (plain overlayMode disableUmount) := by
  cases overlayMode <;> cases disableUmount <;> simp [plainToml, plainTexts, plainText]

theorem roundTrip_plainToml : plainToml.RoundTrip := by
  intro config text htext
  simp only [plainToml] at htext
  split at htext
  · rename_i hplain
    rw [← Option.some.inj htext, persisted_of_isPlain hplain]
    exact fromStr_plainText _ _
  · cases htext

/-- The directory of a machine with this file and no blacklists. -/
def holding (node : Node) : Store := ⟨.fresh node, true, .absent, .absent⟩

def plainNode (overlayMode : OverlayMode) (disableUmount : Bool) : Node :=
  .regular (some (plainText overlayMode disableUmount))

theorem load_plainNode (overlayMode : OverlayMode) (disableUmount strict : Bool) :
    loadAllowingMissing plainToml (holding (plainNode overlayMode disableUmount)).disk strict = .ok
      (plain overlayMode disableUmount) := by
  have hload : load plainToml (holding (plainNode overlayMode disableUmount)).disk =
      .ok (plain overlayMode disableUmount) := by
    have hparse : fromToml plainToml (plainText overlayMode disableUmount) =
        .ok (plain overlayMode disableUmount) := by
      unfold fromToml
      rw [fromStr_plainText]
      rfl
    simp only [load, Store.disk, holding, CrashRegister.fresh, plainNode, Node.readToString, hparse]
    rfl
  unfold loadAllowingMissing
  rw [hload]
  rfl

theorem Run.acknowledged {start node node' : Node} {done : List (Command × Bool)}
    (h : Run plainToml start done (holding node))
    {command : Command} (hrun : command.run plainToml (holding node).disk = (.ok (), (holding node').disk)) :
    Run plainToml start (done ++ [(command, true)]) (holding node') := by
  have hafter : (holding node).after plainToml command = holding node' := by
    unfold Store.after
    rw [hrun]
    rfl
  have hnext := h.command command
  rw [hafter, hrun] at hnext
  exact hnext

/-- A crash may take back what a command which failed has written. -/
theorem Run.lost {start node node' : Node} {done : List (Command × Bool)}
    (h : Run plainToml start done (holding node))
    {command : Command} {err : Error}
    (hrun : command.run plainToml (holding node).disk = (.error err, (holding node').disk)) :
    Run plainToml start (done ++ [(command, false)]) (holding node) := by
  have hfound : node ∈ ((holding node).after plainToml command).register.possible := by
    simp only [Store.after, hrun, settle]
    rw [if_neg (by simp [Except.isOk, Except.toBool])]
    split
    · exact rfl
    · exact .inr rfl
  have hnext := (h.command command).crash node hfound
  simp only [Store.after, hrun] at hnext
  exact hnext

def moveToTmpfs (answer : Answer) : Command := .saveConfig (.ok { overlayMode := some .tmpfs }) answer

def dropMounts (answer : Answer) : Command := .saveConfig (.ok { disableUmount := some false }) answer

/-- One patch is acknowledged, and the next, which is not, is lost in a crash. -/
theorem run_patched :
    Run plainToml (plainNode .ext4 true) [(moveToTmpfs .written, true), (dropMounts .unsynced, false)]
    (holding (plainNode .tmpfs true)) := by
  have hfirst : (moveToTmpfs .written).run plainToml (holding (plainNode .ext4 true)).disk =
      (.ok (), (holding (plainNode .tmpfs true)).disk) := by
    simp only [moveToTmpfs, Command.run, saveConfigPayload, load_plainNode]
    rfl
  have hsecond : (dropMounts .unsynced).run plainToml (holding (plainNode .tmpfs true)).disk =
      (.error (.msg ("atomically save config " ++ CONFIG_PATH)),
        (holding (plainNode .tmpfs false)).disk) := by
    simp only [dropMounts, Command.run, saveConfigPayload, load_plainNode]
    rfl
  have hstart : Run plainToml (plainNode .ext4 true) [] (holding (plainNode .ext4 true)) :=
    .start true .absent .absent
  exact (hstart.acknowledged hfirst).lost hsecond

/-- A file which cannot be read is neither patched nor passed over. -/
theorem run_unpatched :
    Run plainToml (.regular none) [(moveToTmpfs .written, false)] (holding (.regular none)) := by
  have hstart : Run plainToml (.regular none) [] (holding (.regular none)) := .start true .absent .absent
  have hload : loadAllowingMissing plainToml (holding (.regular none)).disk false =
      .error (.configRead CONFIG_PATH .other) := by
    simp [loadAllowingMissing, load, Store.disk, holding, CrashRegister.fresh, Node.readToString,
      Error.isMissing]
  have hrefused : (moveToTmpfs .written).run plainToml (holding (.regular none)).disk =
      (.error (.configRead CONFIG_PATH .other), (holding (.regular none)).disk) := by
    simp only [moveToTmpfs, Command.run, saveConfigPayload, hload]
  exact hstart.lost hrefused

theorem boot_reads_saved_patched :
    (loadForBoot plainToml (holding (plainNode .tmpfs true)).disk = .ok (plain .tmpfs true) ∧
        ∃ picked, Picked [(moveToTmpfs .written, true), (dropMounts .unsynced, false)] picked ∧
          settingsAfter plainToml (plainNode .ext4 true) picked = some (plain .tmpfs true).persisted) ∧
      (holding (.regular none)).register.value = .regular none ∧
        ∀ config, loadForBoot plainToml (holding (.regular none)).disk ≠ .ok config := by
  have hload : loadForBoot plainToml (holding (plainNode .tmpfs true)).disk = .ok (plain .tmpfs true) :=
    load_plainNode .tmpfs true true
  refine ⟨⟨hload, (boot_reads_saved roundTrip_plainToml run_patched).1 _ hload⟩, ?_⟩
  refine (boot_reads_saved roundTrip_plainToml run_unpatched).2 rfl fun entry hentry answer heq => ?_
  rw [List.mem_singleton.mp hentry] at heq
  cases heq

end HybridMount.Settings
