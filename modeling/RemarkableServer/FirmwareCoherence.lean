import RemarkableServer.Firmware

/-!
# What the archive must hold for coherent answers

Images are recorded under the text of the version in the name of the file, and
the lists, the newest version and the deltas are made from the version that was
parsed and written again. The two agree as long as every version is written as
the server writes it and no two files are of the same image or the same delta.
-/
namespace FirmwareCoherence

open RustText Tables Firmware

/-! ## Coherent answers -/

/-- The device and the text of the version, of a file whose name the pattern matches as a production
build of a known device. -/
def production (env : Env) (filename : Text) : Option (DeviceType × Text) :=
  (imageCaptures env filename).bind fun captured =>
    if ReleaseType.fromStr captured.1 = .production then
      (DeviceType.fromStr env.unicode captured.2.2).map fun device => (device, captured.2.1)
    else none

def HasImage (env : Env) (files : List Text) (device : DeviceType) (version : FirmwareVersion) : Prop :=
  ∃ filename ∈ files, ∃ text, production env filename = some (device, text) ∧ FirmwareVersion.parse text = some version

def SameAnswers (m m' : FirmwareManager) : Prop :=
  (∀ device, m.getVersions device = m'.getVersions device) ∧
  (∀ device, m.getLatest device = m'.getLatest device) ∧
  (∀ device version, m.getVersion device version = m'.getVersion device version) ∧
  (∀ device version, m.getFirmwarePath device version = m'.getFirmwarePath device version) ∧
  (∀ device before after, m.getDeltaPath device before after = m'.getDeltaPath device before after) ∧
  ∀ device current, m.checkUpdate device current = m'.checkUpdate device current

/-- What the answers of a manager must be for the files that it read. -/
structure Answered (env : Env) (decode : Text → Text) (files : List Text) (m : FirmwareManager) : Prop where
  /-- Every image is listed, and served under the URL that is advertised for it. -/
  served : ∀ filename ∈ files, ∀ device text, production env filename = some (device, text) →
    ∃ info ∈ m.getVersions device, info.filename = filename ∧ ∀ present : Text → Bool, present filename = true →
      (downloadRequest decode env info.downloadUrl).map (fun request => downloadFirmware env.unicode m present request.1 request.2) =
        some (.ok filename)
  update : ∀ device current v, FirmwareVersion.parse current = some v →
    ((m.checkUpdate device current).updateAvailable = true ↔ ∃ w, HasImage env files device w ∧ w.isNewerThan v = true)
  newest : ∀ device current, (m.checkUpdate device current).updateAvailable = true →
    ∃ info, (m.checkUpdate device current).firmware = some info ∧ info ∈ m.getVersions device ∧
      HasImage env files device info.version ∧ ∀ w, HasImage env files device w → w.isNewerThan info.version = false
  rollback : ∀ device current v, FirmwareVersion.parse current = some v →
    ∃ older : List FirmwareVersion, (m.checkUpdate device current).rollbackVersions = older.map (·.toText) ∧
      (older.map (·.toText)).Nodup ∧ (∀ w ∈ older, v.isNewerThan w = true) ∧ (older.Pairwise fun a b => a.isNewerThan b = true) ∧
      ∀ w ∈ older, ∃ filename ∈ files, production env filename = some (device, w.toText) ∧
        ∀ present : Text → Bool, present filename = true →
          downloadFirmware env.unicode m present w.toText (some device.asStr) = .ok filename
  delta : ∀ device current delta, (m.checkUpdate device current).delta = some delta →
    delta.fromVersion.toText = current ∧
      ∃ info, (m.checkUpdate device current).firmware = some info ∧ delta.toVersion = info.version

/-- In whatever order the directory comes. -/
def Coherent (env : Env) (decode : Text → Text) (files : List Text) : Prop :=
  ∀ order, order.Perm files →
    SameAnswers (.new env order) (.new env files) ∧ Answered env decode order (.new env order)

/-! ## Names -/

def deltaKey (env : Env) (filename : Text) : Option (DeviceType × Text × Text) := (deltaEntry env filename).map (·.1)

structure WellNamed (env : Env) (files : List Text) : Prop where
  /-- The version of an image is written as the server writes it, and its name can stand in a header. -/
  canonical : ∀ filename ∈ files, ∀ image, production env filename = some image →
    deltaCaptures env filename = none ∧ (∃ v : FirmwareVersion, v.toText = image.2) ∧ filename.all isHeaderChar = true
  single : ∀ a ∈ files, ∀ b ∈ files, ∀ image, production env a = some image → production env b = some image → a = b
  /-- No two deltas lead from the same version to the same image. -/
  singleDelta : ∀ a ∈ files, ∀ b ∈ files, ∀ key, deltaKey env a = some key → deltaKey env b = some key →
    (∃ c ∈ files, production env c = some (key.1, key.2.2)) → a = b

/-! ## Entries -/

section
variable {env : Env} {filename : Text} {device : DeviceType} {text : Text} {info : FirmwareInfo}

theorem imageEntry_of_production (hdelta : deltaCaptures env filename = none) (h : production env filename = some (device, text))
    {v : FirmwareVersion} (hv : FirmwareVersion.parse text = some v) :
    imageEntry env filename = some ((device, text), ⟨v, device, filename, env.size filename, none, .production,
      env.baseUrl ++ "/firmware/v1/download/".toList ++ text ++ "?device=".toList ++ device.asStr⟩) := by
  obtain ⟨captured, hcaptured, h⟩ := Option.bind_eq_some_iff.mp h
  split at h
  next hrelease =>
    obtain ⟨d, hd, heq⟩ := Option.map_eq_some_iff.mp h
    cases heq
    simp only [imageEntry, hdelta, hcaptured, hv, hd, Option.bind_some, if_pos hrelease, Option.isSome_none, Bool.false_eq_true,
      if_false]
  · cases h

theorem imageEntry_spec (h : imageEntry env filename = some ((device, text), info)) :
    deltaCaptures env filename = none ∧ production env filename = some (device, text) ∧
      FirmwareVersion.parse text = some info.version ∧ info.filename = filename := by
  unfold imageEntry at h
  split at h
  · cases h
  next hdelta =>
    obtain ⟨captured, hcaptured, h⟩ := Option.bind_eq_some_iff.mp h
    obtain ⟨v, hv, h⟩ := Option.bind_eq_some_iff.mp h
    obtain ⟨d, hd, h⟩ := Option.bind_eq_some_iff.mp h
    split at h
    next hrelease =>
      cases h
      refine ⟨by simpa using hdelta, ?_, hv, rfl⟩
      rw [production, hcaptured, Option.bind_some, if_pos hrelease, hd]
      rfl
    · cases h

theorem deltaEntry_spec {key : DeviceType × Text × Text} {delta : DeltaUpdate} (h : deltaEntry env filename = some (key, delta)) :
    key.2.1 = delta.fromVersion.toText ∧ key.2.2 = delta.toVersion.toText ∧ delta.filename = filename := by
  obtain ⟨captured, -, h⟩ := Option.bind_eq_some_iff.mp h
  obtain ⟨before, -, h⟩ := Option.bind_eq_some_iff.mp h
  obtain ⟨after, -, h⟩ := Option.bind_eq_some_iff.mp h
  obtain ⟨d, -, h⟩ := Option.bind_eq_some_iff.mp h
  split at h
  · cases h
    exact ⟨rfl, rfl, rfl⟩
  · cases h

theorem versionOf_eq_some {v : FirmwareVersion} :
    versionOf env device filename = some v ↔ ∃ text info, imageEntry env filename = some ((device, text), info) ∧ info.version = v := by
  rw [versionOf, Option.bind_eq_some_iff]
  constructor
  · rintro ⟨⟨⟨d, text⟩, info⟩, hentry, h⟩
    split at h
    next hd =>
      cases h
      dsimp only at hd
      exact ⟨text, info, by rw [hentry, hd], rfl⟩
    · cases h
  · rintro ⟨text, info, hentry, rfl⟩
    exact ⟨_, hentry, if_pos rfl⟩

end

/-! ## Downloads -/

theorem asStr_chars (device : DeviceType) : ∀ c ∈ device.asStr, c.isLower = true ∨ c.isDigit = true := by
  have hall : (device.asStr.all fun c => c.isLower || c.isDigit) = true := by
    cases device <;> decide
  intro c hc
  exact Bool.or_eq_true_iff.mp (List.all_eq_true.mp hall c hc)

section
variable {u : Unicode} (hlower : ∀ t, (∀ c ∈ t, c.isLower = true ∨ c.isDigit = true) → u.toLowercase t = t)
include hlower

theorem fromStr_asStr (device : DeviceType) : DeviceType.fromStr u device.asStr = some device := by
  unfold DeviceType.fromStr
  rw [hlower _ (asStr_chars device)]
  cases device <;> decide

theorem downloadFirmware_of_lookup {m : FirmwareManager} {device : DeviceType} {version : Text} {info : FirmwareInfo}
    (h : m.firmware.lookup (device, version) = some info) (hname : info.filename.all isHeaderChar = true) {present : Text → Bool}
    (hpresent : present info.filename = true) :
    downloadFirmware u m present version (some device.asStr) = .ok info.filename := by
  have hdevice : downloadDevice u m version (some device.asStr) = .ok device := by
    rw [downloadDevice, fromStr_asStr hlower]
  rw [downloadFirmware, hdevice]
  dsimp only [Except.bind]
  rw [FirmwareManager.getVersion, h]
  dsimp only
  rw [FirmwareManager.getFirmwarePath, h, Option.map_some, Option.filter_some, if_pos hpresent]
  dsimp only
  rw [serveFile, if_pos hname]

end

/-- A file that is served has a name that can stand in a header. -/
theorem headers_of_download {u : Unicode} {m : FirmwareManager} {present : Text → Bool} {version : Text} {device : Option Text}
    {filename : Text} (h : downloadFirmware u m present version device = .ok filename) : filename.all isHeaderChar = true := by
  have hserve : ∀ name, serveFile name = .ok filename → filename.all isHeaderChar = true := by
    intro name hname
    rw [serveFile] at hname
    split at hname
    next hall =>
      cases hname
      exact hall
    · cases hname
  rw [downloadFirmware] at h
  cases hdevice : downloadDevice u m version device with
  | error e =>
    rw [hdevice] at h
    cases h
  | ok device =>
    rw [hdevice] at h
    dsimp only [Except.bind] at h
    split at h
    · cases h
    split at h
    · cases h
    · exact hserve _ h

/-- The URL of an image is understood as the version and the device that it is made of. -/
theorem downloadRequest_url {decode : Text → Text}
    (hdecode : ∀ t, (∀ c ∈ t, c.isLower = true ∨ c.isDigit = true ∨ c = '.') → decode t = t) (env : Env) (v : FirmwareVersion)
    (device : DeviceType) :
    downloadRequest decode env
      (env.baseUrl ++ "/firmware/v1/download/".toList ++ v.toText ++ "?device=".toList ++ device.asStr) =
        some (v.toText, some device.asStr) := by
  have hchars : ∀ c ∈ v.toText, c.isDigit = true ∨ c = '.' := by
    intro c hc
    simp only [FirmwareVersion.toText, List.mem_append, List.mem_cons] at hc
    rcases hc with ((hc | rfl | hc) | rfl | hc) | rfl | hc
    · exact .inl (isDigit_of_mem_showU64 hc)
    · exact .inr rfl
    · exact .inl (isDigit_of_mem_showU64 hc)
    · exact .inr rfl
    · exact .inl (isDigit_of_mem_showU64 hc)
    · exact .inr rfl
    · exact .inl (isDigit_of_mem_showU64 hc)
  have hquestion : ∀ c ∈ v.toText, (c != '?') = true := by
    intro c hc
    rw [bne_iff_ne]
    rintro rfl
    exact absurd (hchars _ hc) (by decide)
  have hslash : v.toText.contains '/' = false := by
    rw [← Bool.not_eq_true, List.contains_iff_mem]
    exact fun hc => absurd (hchars _ hc) (by decide)
  have hempty : v.toText.isEmpty = false := by
    rw [FirmwareVersion.toText]
    simp
  have hquery : split '&' ("device=".toList ++ device.asStr) = ["device=".toList ++ device.asStr] := by
    cases device <;> decide
  have hurl : env.baseUrl ++ "/firmware/v1/download/".toList ++ v.toText ++ "?device=".toList ++ device.asStr =
      (env.baseUrl ++ "/firmware/v1/download/".toList) ++ (v.toText ++ '?' :: ("device=".toList ++ device.asStr)) := by
    simp only [List.append_assoc]
    rfl
  have htake : (v.toText ++ '?' :: ("device=".toList ++ device.asStr)).takeWhile (· != '?') = v.toText := by
    rw [List.takeWhile_append_of_pos hquestion, List.takeWhile_cons_of_neg (by decide), List.append_nil]
  have hdrop : (v.toText ++ '?' :: ("device=".toList ++ device.asStr)).drop (v.toText.length + 1) =
      "device=".toList ++ device.asStr := by
    rw [← List.drop_drop, List.drop_left, List.drop_one, List.tail_cons]
  have hfind : (["device=".toList ++ device.asStr].find? fun pair => "device=".toList <+: pair) =
      some ("device=".toList ++ device.asStr) := by
    have hpre : "device=".toList <+: "device=".toList ++ device.asStr := List.prefix_append _ _
    rw [List.find?_cons, decide_eq_true hpre]
  have hversion : decode v.toText = v.toText := hdecode _ fun c hc => .inr (hchars c hc)
  have hname : decode device.asStr = device.asStr := hdecode _ fun c hc => (asStr_chars device c hc).imp_right .inl
  rw [hurl, downloadRequest, if_pos (List.prefix_append _ _), List.drop_left]
  dsimp only
  rw [htake, hdrop, hempty, hslash, hquery, hfind, Option.map_some, List.drop_left, hversion, hname]
  rfl

/-! ## Well named archives -/

section
variable {env : Env} {files : List Text} {device : DeviceType}

theorem WellNamed.perm {order : List Text} (h : WellNamed env files) (hperm : order.Perm files) : WellNamed env order where
  canonical a ha := h.canonical a (hperm.subset ha)
  single a ha b hb := h.single a (hperm.subset ha) b (hperm.subset hb)
  singleDelta a ha b hb key hka hkb := fun ⟨c, hc, himage⟩ =>
    h.singleDelta a (hperm.subset ha) b (hperm.subset hb) key hka hkb ⟨c, hperm.subset hc, himage⟩

theorem WellNamed.entry (h : WellNamed env files) {filename text : Text} (hfile : filename ∈ files)
    (hproduction : production env filename = some (device, text)) :
    ∃ v : FirmwareVersion, v.toText = text ∧ imageEntry env filename = some ((device, text),
      ⟨v, device, filename, env.size filename, none, .production,
        env.baseUrl ++ "/firmware/v1/download/".toList ++ text ++ "?device=".toList ++ device.asStr⟩) := by
  obtain ⟨hdelta, ⟨v, rfl⟩, -⟩ := h.canonical filename hfile _ hproduction
  exact ⟨v, rfl, imageEntry_of_production hdelta hproduction (FirmwareVersion.parse_toText v)⟩

/-- Every image is in the table, under its own version. -/
theorem WellNamed.lookup (h : WellNamed env files) {text : Text} {info : FirmwareInfo} :
    (FirmwareManager.new env files).firmware.lookup (device, text) = some info ↔
      ∃ filename ∈ files, imageEntry env filename = some ((device, text), info) := by
  rw [firmware_new]
  apply lookup_ofItems_of_unique
  intro a ha b hb v w hva hwb
  exact h.single a ha b hb _ (imageEntry_spec hva).2.1 (imageEntry_spec hwb).2.1

theorem WellNamed.toText_version (h : WellNamed env files) {filename text : Text} {info : FirmwareInfo} (hfile : filename ∈ files)
    (hentry : imageEntry env filename = some ((device, text), info)) : info.version.toText = text := by
  obtain ⟨-, hproduction, hparse, -⟩ := imageEntry_spec hentry
  obtain ⟨v, rfl, -⟩ := h.entry hfile hproduction
  rw [FirmwareVersion.parse_toText] at hparse
  rw [← Option.some.inj hparse]

theorem WellNamed.mem_versions (h : WellNamed env files) {v : FirmwareVersion} :
    v ∈ (FirmwareManager.new env files).versions device ↔ HasImage env files device v := by
  rw [versions_new, (sortVersions_perm _).mem_iff, List.mem_filterMap]
  constructor
  · rintro ⟨filename, hfile, hversion⟩
    obtain ⟨text, info, hentry, rfl⟩ := versionOf_eq_some.mp hversion
    obtain ⟨-, hproduction, hparse, -⟩ := imageEntry_spec hentry
    exact ⟨filename, hfile, text, hproduction, hparse⟩
  · rintro ⟨filename, hfile, text, hproduction, hparse⟩
    obtain ⟨w, rfl, hentry⟩ := h.entry hfile hproduction
    rw [FirmwareVersion.parse_toText] at hparse
    exact ⟨filename, hfile, versionOf_eq_some.mpr ⟨_, _, hentry, Option.some.inj hparse⟩⟩

/-- Every version that is listed has its image. -/
theorem WellNamed.lookup_version (h : WellNamed env files) {v : FirmwareVersion} (hv : HasImage env files device v) :
    ∃ filename ∈ files, ∃ info, production env filename = some (device, v.toText) ∧ info.filename = filename ∧ info.version = v ∧
      (FirmwareManager.new env files).firmware.lookup (device, v.toText) = some info := by
  obtain ⟨filename, hfile, text, hproduction, hparse⟩ := hv
  obtain ⟨w, rfl, hentry⟩ := h.entry hfile hproduction
  rw [FirmwareVersion.parse_toText] at hparse
  cases Option.some.inj hparse
  exact ⟨filename, hfile, _, hproduction, rfl, rfl, h.lookup.mpr ⟨filename, hfile, hentry⟩⟩

/-- No version is listed twice. -/
theorem WellNamed.versions_sorted (h : WellNamed env files) (hnodup : files.Nodup) (device : DeviceType) :
    ((FirmwareManager.new env files).versions device).Pairwise fun a b => a.isNewerThan b = true := by
  have hdistinct : (files.filterMap (versionOf env device)).Nodup := by
    rw [List.Nodup, List.pairwise_filterMap]
    apply hnodup.imp_of_mem
    intro a b ha hb hab v hv w hw heq
    obtain ⟨text, info, hentry, rfl⟩ := versionOf_eq_some.mp hv
    obtain ⟨text', info', hentry', rfl⟩ := versionOf_eq_some.mp hw
    have htext := h.toText_version ha hentry
    have htext' := h.toText_version hb hentry'
    rw [heq, htext'] at htext
    rw [← htext] at hentry
    exact hab (h.single a ha b hb _ (imageEntry_spec hentry).2.1 (imageEntry_spec hentry').2.1)
  have hnodup' := (sortVersions_perm (files.filterMap (versionOf env device))).nodup_iff.mpr hdistinct
  rw [versions_new]
  refine ((pairwise_sortVersions _).and hnodup').imp ?_
  rintro a b ⟨hnot, hne⟩
  by_contra hnewer
  exact hne (FirmwareVersion.eq_of_not_newer (Bool.not_eq_true _ ▸ hnewer) hnot)

/-- The newest version is the one that is listed first. -/
theorem WellNamed.latest_spec (h : WellNamed env files) (hnodup : files.Nodup) {latest : FirmwareVersion}
    (hlatest : (FirmwareManager.new env files).latest device = some latest) :
    HasImage env files device latest ∧ ∀ w, HasImage env files device w → w.isNewerThan latest = false := by
  rw [latest_new] at hlatest
  have hsorted := h.versions_sorted hnodup device
  have hmem : ∀ w, HasImage env files device w → w ∈ (FirmwareManager.new env files).versions device := fun w hw =>
    h.mem_versions.mpr hw
  refine ⟨h.mem_versions.mp (List.mem_of_mem_head? hlatest), fun w hw => ?_⟩
  have hw := hmem w hw
  cases hversions : (FirmwareManager.new env files).versions device with
  | nil =>
    rw [hversions] at hw
    cases hw
  | cons first rest =>
    rw [hversions] at hlatest hsorted hw
    cases hlatest
    rcases List.mem_cons.mp hw with rfl | hrest
    · exact FirmwareVersion.not_newer_self w
    · exact FirmwareVersion.newer_asymm ((List.pairwise_cons.mp hsorted).1 w hrest)

theorem WellNamed.updateAvailable_iff (h : WellNamed env files) (hnodup : files.Nodup) {current : Text} {v : FirmwareVersion}
    (hv : FirmwareVersion.parse current = some v) :
    ((FirmwareManager.new env files).checkUpdate device current).updateAvailable = true ↔
      ∃ w, HasImage env files device w ∧ w.isNewerThan v = true := by
  rw [FirmwareManager.checkUpdate, hv]
  dsimp only
  cases hlatest : (FirmwareManager.new env files).latest device with
  | none =>
    have hnone : (FirmwareManager.new env files).versions device = [] := by
      rwa [latest_new, List.head?_eq_none_iff] at hlatest
    refine ⟨fun hfalse => (nomatch hfalse), ?_⟩
    rintro ⟨w, hw, -⟩
    have hmem := h.mem_versions.mpr hw
    rw [hnone] at hmem
    cases hmem
  | some latest =>
    obtain ⟨himage, hmax⟩ := h.latest_spec hnodup hlatest
    refine ⟨fun hnewer => ⟨latest, himage, hnewer⟩, ?_⟩
    rintro ⟨w, hw, hnewer⟩
    by_contra hnot
    have hnot : latest.isNewerThan v = false := Bool.not_eq_true _ ▸ hnot
    rw [FirmwareVersion.not_newer_trans hnot (hmax w hw)] at hnewer
    cases hnewer

/-- The newest version of a device, where an update is available. -/
theorem exists_latest {m : FirmwareManager} {current : Text} (h : (m.checkUpdate device current).updateAvailable = true) :
    ∃ v latest, FirmwareVersion.parse current = some v ∧ m.latest device = some latest ∧
      (m.checkUpdate device current).firmware = m.firmware.lookup (device, latest.toText) ∧
      (m.checkUpdate device current).delta = m.deltas.lookup (device, current, latest.toText) := by
  unfold FirmwareManager.checkUpdate at h ⊢
  cases hv : FirmwareVersion.parse current with
  | none =>
    rw [hv] at h
    cases h
  | some v =>
    rw [hv] at h
    dsimp only at h ⊢
    cases hlatest : m.latest device with
    | none =>
      rw [hlatest] at h
      cases h
    | some latest =>
      rw [hlatest] at h
      exact ⟨v, latest, rfl, rfl, if_pos h, if_pos h⟩

theorem updateAvailable_of_delta {m : FirmwareManager} {current : Text} {delta : DeltaUpdate}
    (h : (m.checkUpdate device current).delta = some delta) : (m.checkUpdate device current).updateAvailable = true := by
  unfold FirmwareManager.checkUpdate at h ⊢
  split at h
  · cases h
  · dsimp only at h ⊢
    by_contra hnot
    rw [if_neg hnot] at h
    cases h

theorem mem_getVersions {m : FirmwareManager} {info : FirmwareInfo} :
    info ∈ m.getVersions device ↔ ∃ v ∈ m.versions device, m.firmware.lookup (device, v.toText) = some info :=
  List.mem_filterMap

theorem lookup_deltas_new {key : DeviceType × Text × Text} {delta : DeltaUpdate}
    (h : (FirmwareManager.new env files).deltas.lookup key = some delta) :
    ∃ filename ∈ files, deltaEntry env filename = some (key, delta) := by
  rw [deltas_new, lookup_retain, Option.filter_eq_some_iff] at h
  exact exists_of_lookup_ofItems h.1

/-- A well named archive is answered for as it should be. -/
theorem WellNamed.answered (h : WellNamed env files) (hnodup : files.Nodup)
    (hlower : ∀ t, (∀ c ∈ t, c.isLower = true ∨ c.isDigit = true) → env.unicode.toLowercase t = t) {decode : Text → Text}
    (hdecode : ∀ t, (∀ c ∈ t, c.isLower = true ∨ c.isDigit = true ∨ c = '.') → decode t = t) :
    Answered env decode files (.new env files) where
  served filename hfile device text hproduction := by
    obtain ⟨v, rfl, hentry⟩ := h.entry hfile hproduction
    have hlookup := h.lookup.mpr ⟨filename, hfile, hentry⟩
    have hversion := h.mem_versions.mpr ⟨filename, hfile, v.toText, hproduction, FirmwareVersion.parse_toText v⟩
    have hheader := (h.canonical filename hfile _ hproduction).2.2
    refine ⟨_, mem_getVersions.mpr ⟨v, hversion, hlookup⟩, rfl, fun present hpresent => ?_⟩
    rw [downloadRequest_url hdecode, Option.map_some, downloadFirmware_of_lookup hlower hlookup hheader hpresent]
  update device current v hv := h.updateAvailable_iff hnodup hv
  newest device current havailable := by
    obtain ⟨v, latest, -, hlatest, hfirmware, -⟩ := exists_latest havailable
    obtain ⟨himage, hmax⟩ := h.latest_spec hnodup hlatest
    obtain ⟨filename, -, info, -, -, rfl, hlookup⟩ := h.lookup_version himage
    exact ⟨info, hfirmware.trans hlookup, mem_getVersions.mpr ⟨_, h.mem_versions.mpr himage, hlookup⟩, himage, hmax⟩
  rollback device current v hv := by
    have hsorted := h.versions_sorted hnodup device
    have hsub : (((FirmwareManager.new env files).versions device).filter fun w => v.isNewerThan w).take 5 |>.Sublist
        ((FirmwareManager.new env files).versions device) := (List.take_sublist _ _).trans List.filter_sublist
    refine ⟨(((FirmwareManager.new env files).versions device).filter fun w => v.isNewerThan w).take 5, ?_, ?_, ?_, ?_, ?_⟩
    · rw [FirmwareManager.checkUpdate, hv]
    · apply List.Nodup.map FirmwareVersion.toText_injective
      refine (hsorted.sublist hsub).imp fun {a b} hnewer heq => ?_
      rw [heq, FirmwareVersion.not_newer_self] at hnewer
      cases hnewer
    · intro w hw
      exact (List.mem_filter.mp (List.mem_of_mem_take hw)).2
    · exact hsorted.sublist hsub
    · intro w hw
      obtain ⟨filename, hfile, info, hproduction, rfl, -, hlookup⟩ := h.lookup_version (h.mem_versions.mp (hsub.subset hw))
      have hheader := (h.canonical _ hfile _ hproduction).2.2
      exact ⟨_, hfile, hproduction, fun present hpresent => downloadFirmware_of_lookup hlower hlookup hheader hpresent⟩
  delta device current delta hdelta := by
    obtain ⟨v, latest, -, hlatest, hfirmware, hlookup⟩ := exists_latest (updateAvailable_of_delta hdelta)
    obtain ⟨himage, -⟩ := h.latest_spec hnodup hlatest
    obtain ⟨-, -, info, -, -, rfl, hinfo⟩ := h.lookup_version himage
    obtain ⟨filename, -, hentry⟩ := lookup_deltas_new (hlookup.symm.trans hdelta)
    obtain ⟨hbefore, hafter, -⟩ := deltaEntry_spec hentry
    exact ⟨hbefore.symm, info, hfirmware.trans hinfo, (FirmwareVersion.toText_injective hafter).symm⟩

end

/-! ## The order of the directory -/

/-- Managers with the same tables give the same answers. -/
theorem sameAnswers_of_tables {m m' : FirmwareManager} (hfirmware : ∀ key, m.firmware.lookup key = m'.firmware.lookup key)
    (hversions : m.versions = m'.versions) (hlatest : m.latest = m'.latest) (hdeltas : ∀ key, m.deltas.lookup key = m'.deltas.lookup key) :
    SameAnswers m m' := by
  refine ⟨?_, ?_, ?_, ?_, ?_, ?_⟩
  · intro device
    simp only [FirmwareManager.getVersions, hversions, hfirmware]
  · intro device
    simp only [FirmwareManager.getLatest, hlatest, hfirmware]
  · intro device version
    exact hfirmware _
  · intro device version
    simp only [FirmwareManager.getFirmwarePath, hfirmware]
  · intro device before after
    simp only [FirmwareManager.getDeltaPath, hdeltas]
  · intro device current
    simp only [FirmwareManager.checkUpdate, hversions, hlatest, hfirmware, hdeltas]

section
variable {env : Env} {files order : List Text}

/-- An image is in the table whatever the order. -/
theorem lookup_firmware_perm (h : WellNamed env files) (hperm : order.Perm files) (key : DeviceType × Text) :
    (FirmwareManager.new env order).firmware.lookup key = (FirmwareManager.new env files).firmware.lookup key := by
  obtain ⟨device, text⟩ := key
  ext info
  rw [h.lookup, (h.perm hperm).lookup]
  simp only [hperm.mem_iff]

theorem firmware_isSome_iff (h : WellNamed env files) {device : DeviceType} {text : Text} :
    ((FirmwareManager.new env files).firmware.lookup (device, text)).isSome = true ↔
      ∃ filename ∈ files, production env filename = some (device, text) := by
  rw [firmware_new, lookup_ofItems_isSome]
  constructor
  · rintro ⟨filename, hfile, info, hentry⟩
    exact ⟨filename, hfile, (imageEntry_spec hentry).2.1⟩
  · rintro ⟨filename, hfile, hproduction⟩
    obtain ⟨v, -, hentry⟩ := h.entry hfile hproduction
    exact ⟨filename, hfile, _, hentry⟩

theorem deltaKey_eq_some {filename : Text} {key : DeviceType × Text × Text} :
    deltaKey env filename = some key ↔ ∃ delta, deltaEntry env filename = some (key, delta) := by
  rw [deltaKey, Option.map_eq_some_iff]
  constructor
  · rintro ⟨⟨key, delta⟩, hentry, rfl⟩
    exact ⟨delta, hentry⟩
  · rintro ⟨delta, hentry⟩
    exact ⟨_, hentry, rfl⟩

theorem lookup_deltas_iff (h : WellNamed env files) {key : DeviceType × Text × Text} {delta : DeltaUpdate} :
    (FirmwareManager.new env files).deltas.lookup key = some delta ↔
      (∃ filename ∈ files, production env filename = some (key.1, key.2.2)) ∧
        ∃ filename ∈ files, deltaEntry env filename = some (key, delta) := by
  rw [deltas_new, ← firmware_new, lookup_retain, Option.filter_eq_some_iff, firmware_isSome_iff h, and_comm]
  refine and_congr_right fun himage => ?_
  apply lookup_ofItems_of_unique
  intro a ha b hb v w hva hwb
  exact h.singleDelta a ha b hb key (deltaKey_eq_some.mpr ⟨v, hva⟩) (deltaKey_eq_some.mpr ⟨w, hwb⟩) himage

theorem WellNamed.sameAnswers (h : WellNamed env files) (hperm : order.Perm files) :
    SameAnswers (.new env order) (.new env files) := by
  have hversions : (FirmwareManager.new env order).versions = (FirmwareManager.new env files).versions := by
    funext device
    rw [versions_new, versions_new]
    exact sortVersions_congr (hperm.filterMap _)
  refine sameAnswers_of_tables (lookup_firmware_perm h hperm) hversions ?_ ?_
  · funext device
    rw [latest_new, latest_new, hversions]
  · intro key
    ext delta
    rw [lookup_deltas_iff h, lookup_deltas_iff (h.perm hperm)]
    simp only [hperm.mem_iff]

end

/-! ## What coherent answers need -/

section
variable {env : Env} {decode : Text → Text} {files : List Text} {device : DeviceType} {filename text : Text}

/-- An image that is listed is the one in the table for the version as the server writes it. -/
theorem listed_image (h : Answered env decode files (.new env files)) (hfile : filename ∈ files)
    (hproduction : production env filename = some (device, text)) :
    deltaCaptures env filename = none ∧ (∃ v : FirmwareVersion, v.toText = text) ∧ filename.all isHeaderChar = true ∧
      ∃ info, (FirmwareManager.new env files).firmware.lookup (device, text) = some info ∧ info.filename = filename := by
  obtain ⟨info, hinfo, hname, hserved⟩ := h.served filename hfile device text hproduction
  obtain ⟨v, -, hlookup⟩ := mem_getVersions.mp hinfo
  have hentry := hlookup
  rw [firmware_new] at hentry
  obtain ⟨a, -, hentry⟩ := exists_of_lookup_ofItems hentry
  obtain ⟨hdelta, hproduction', -, ha⟩ := imageEntry_spec hentry
  rw [hname] at ha
  rw [← ha] at hdelta hproduction'
  rw [hproduction] at hproduction'
  cases hproduction'
  have hserved := hserved (fun _ => true) rfl
  obtain ⟨request, -, hdownload⟩ := Option.map_eq_some_iff.mp hserved
  exact ⟨hdelta, ⟨v, rfl⟩, headers_of_download hdownload, info, hlookup, hname⟩

/-- The delta that comes last is the one that is found. -/
theorem getDeltaPath_concat {key : DeviceType × Text × Text} {files : List Text} (hkey : deltaKey env filename = some key)
    (himage : ((FirmwareManager.new env (files ++ [filename])).firmware.lookup (key.1, key.2.2)).isSome = true) :
    (FirmwareManager.new env (files ++ [filename])).getDeltaPath key.1 key.2.1 key.2.2 = some filename := by
  obtain ⟨delta, hentry⟩ := deltaKey_eq_some.mp hkey
  rw [firmware_new] at himage
  rw [FirmwareManager.getDeltaPath, deltas_new, lookup_retain, lookup_ofItems_concat hentry, Option.filter_some, if_pos himage,
    Option.map_some, (deltaEntry_spec hentry).2.2]

theorem wellNamed_of_coherent (h : Coherent env decode files) : WellNamed env files := by
  obtain ⟨-, hanswered⟩ := h files (.refl files)
  have hcanonical : ∀ filename ∈ files, ∀ image, production env filename = some image →
      deltaCaptures env filename = none ∧ (∃ v : FirmwareVersion, v.toText = image.2) ∧ filename.all isHeaderChar = true := by
    intro filename hfile image hproduction
    obtain ⟨hdelta, hversion, hheader, -⟩ := listed_image hanswered hfile hproduction
    exact ⟨hdelta, hversion, hheader⟩
  have hsingle : ∀ a ∈ files, ∀ b ∈ files, ∀ image, production env a = some image → production env b = some image → a = b := by
    intro a ha b hb image hpa hpb
    obtain ⟨-, -, -, info, hinfo, rfl⟩ := listed_image hanswered ha hpa
    obtain ⟨-, -, -, info', hinfo', rfl⟩ := listed_image hanswered hb hpb
    rw [hinfo] at hinfo'
    cases hinfo'
    rfl
  refine ⟨hcanonical, hsingle, ?_⟩
  rintro a ha b hb key hka hkb ⟨c, hc, himage⟩
  by_contra hab
  -- the two files come last, once in each order
  have hb' : b ∈ files.erase a := (List.mem_erase_of_ne (Ne.symm hab)).mpr hb
  have hperm : (a :: b :: (files.erase a).erase b).Perm files :=
    ((List.perm_cons_erase hb').symm.cons a).trans (List.perm_cons_erase ha).symm
  have hpath : ∀ x y, deltaKey env x = some key → (((files.erase a).erase b ++ [y]) ++ [x]).Perm files →
      (FirmwareManager.new env files).getDeltaPath key.1 key.2.1 key.2.2 = some x := by
    intro x y hkx hperm
    obtain ⟨⟨-, -, -, -, hsame, -⟩, hanswered'⟩ := h _ hperm
    obtain ⟨-, -, -, info, hinfo, -⟩ := listed_image hanswered' (hperm.symm.subset hc) himage
    have hsome : ((FirmwareManager.new env (((files.erase a).erase b ++ [y]) ++ [x])).firmware.lookup
        (key.1, key.2.2)).isSome = true := by
      rw [hinfo]
      rfl
    rw [← hsame, getDeltaPath_concat hkx hsome]
  have hlast : ∀ x y, (((files.erase a).erase b ++ [y]) ++ [x]).Perm (x :: y :: (files.erase a).erase b) := fun x y =>
    (List.perm_append_singleton x _).trans ((List.perm_append_singleton y _).cons x)
  have hpa := hpath a b hka ((hlast a b).trans hperm)
  have hpb := hpath b a hkb ((hlast b a).trans ((List.Perm.swap a b _).trans hperm))
  rw [hpa] at hpb
  exact hab (Option.some.inj hpb)

end

/-- The answers are coherent, in whatever order the directory comes, if and only if the versions of the images are
written as the server writes them, their names can stand in a header, and no two files are of one image or of one
delta. -/
theorem coherent_iff {env : Env} {decode : Text → Text} {files : List Text} (hnodup : files.Nodup)
    (hlower : ∀ t, (∀ c ∈ t, c.isLower = true ∨ c.isDigit = true) → env.unicode.toLowercase t = t)
    (hdecode : ∀ t, (∀ c ∈ t, c.isLower = true ∨ c.isDigit = true ∨ c = '.') → decode t = t) :
    Coherent env decode files ↔ WellNamed env files := by
  refine ⟨wellNamed_of_coherent, fun h order hperm => ?_⟩
  exact ⟨h.sameAnswers hperm, (h.perm hperm).answered (hperm.nodup_iff.mpr hnodup) hlower hdecode⟩

/-! ## Two archives -/

/-- Word characters, digits and lowercase of ASCII. -/
def ascii : Env where
  unicode := ⟨fun c => c.isAlphanum || c == '_', Char.isDigit, fun t => t.map Char.toLower⟩
  size _ := 0
  publicUrl := "http://h".toList

theorem toLowercase_ascii (t : Text) (h : ∀ c ∈ t, c.isLower = true ∨ c.isDigit = true) : ascii.unicode.toLowercase t = t := by
  have hchar : ∀ c ∈ t, Char.toLower c = id c := by
    intro c hc
    apply toLower_of_not_isUpper
    rw [isUpper_iff]
    have hrange := h c hc
    change (decide (97 ≤ c.val) && decide (c.val ≤ 122)) = true ∨ (decide (48 ≤ c.val) && decide (c.val ≤ 57)) = true at hrange
    simp only [Bool.and_eq_true, decide_eq_true_eq] at hrange
    change (97 ≤ c.toNat ∧ c.toNat ≤ 122) ∨ (48 ≤ c.toNat ∧ c.toNat ≤ 57) at hrange
    omega
  exact (List.map_congr_left hchar).trans (List.map_id t)

def update : List Text :=
  ["remarkable-production-image-3.5.2.1807-rm2-public.swu".toList, "remarkable-production-image-3.28.0.172-rm2-public.swu".toList,
    "remarkable-production-delta-3.5.2.1807-to-3.28.0.172-rm2-public.swu".toList,
    "remarkable-ct-prototype-image-4.0.0.1-rm2-public.swu".toList]

theorem evaluated_update : update.Nodup ∧ ∀ a ∈ update, (∀ image ∈ production ascii a, deltaCaptures ascii a = none ∧
      (FirmwareVersion.parse image.2).map (·.toText) = some image.2 ∧ a.all isHeaderChar = true) ∧
    ∀ b ∈ update, (∀ image ∈ production ascii a, production ascii b = some image → a = b) ∧
      ∀ key ∈ deltaKey ascii a, deltaKey ascii b = some key → a = b := by
  -- The lemma gives the characters of each name; the evaluation would decode the bytes of the literals.
  have hchars : update = _ :=
    congrArg₂ List.cons String.toList_ofList (congrArg₂ List.cons String.toList_ofList
      (congrArg₂ List.cons String.toList_ofList (congrArg₂ List.cons String.toList_ofList rfl)))
  rw [hchars]
  decide

theorem wellNamed_update : WellNamed ascii update := by
  refine ⟨fun filename hfile image himage => ?_, fun a ha b hb => ((evaluated_update.2 a ha).2 b hb).1,
    fun a ha b hb key hka hkb _ => ((evaluated_update.2 a ha).2 b hb).2 key hka hkb⟩
  obtain ⟨hnone, hparse, hheader⟩ := (evaluated_update.2 filename hfile).1 image himage
  obtain ⟨v, -, hv⟩ := Option.map_eq_some_iff.mp hparse
  exact ⟨hnone, ⟨v, hv⟩, hheader⟩

/-- An archive with an update, its delta and a prototype. -/
theorem coherent_update : Coherent ascii id update :=
  (coherent_iff evaluated_update.1 toLowercase_ascii fun _ _ => rfl).mpr wellNamed_update

/-- A version that is not written as the server writes it. -/
def padded : Text := "remarkable-production-image-03.5.2.1807-rm2-public.swu".toList

/-- The image is recorded under a text that no list and no URL leads to. -/
theorem padded_not_listed : production ascii padded = some (.rm2, "03.5.2.1807".toList) ∧
    (FirmwareManager.new ascii [padded]).getVersions .rm2 = [] ∧ ¬ Coherent ascii id [padded] := by
  obtain ⟨hproduction, hversions⟩ : production ascii padded = some (.rm2, "03.5.2.1807".toList) ∧
      (FirmwareManager.new ascii [padded]).getVersions .rm2 = [] := by
    have hchars : padded = _ := String.toList_ofList
    rw [hchars]
    decide +kernel
  refine ⟨hproduction, hversions, fun h => ?_⟩
  obtain ⟨info, hinfo, -⟩ := (h [padded] (.refl _)).2.served padded List.mem_cons_self _ _ hproduction
  rw [hversions] at hinfo
  cases hinfo

end FirmwareCoherence
