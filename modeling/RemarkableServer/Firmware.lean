import Mathlib.Data.List.Sort
import RemarkableServer.Lib.RustText
import RemarkableServer.Lib.Table

/-!
# The firmware archive

The manager reads the names of the files of a directory once and answers from
its tables: the images by device and the text of the version, the versions of
each device in order, and the deltas between two versions. The character
classes of the patterns and `to_lowercase` are those of Unicode and are taken
as they are.
-/
namespace Firmware

open RustText Tables

/-! ## Patterns -/

/-- What the two patterns are made of. Repetitions and options take as much as they can first. -/
inductive Pattern where
  | text (t : Text)
  | plus (p : Char → Bool)
  | seq (a b : Pattern)
  | optional (a : Pattern)
  | either (a b : Pattern)
  | group (a : Pattern)

namespace Pattern

def repeats (p : Char → Bool) : Text → List Text
  | [] => []
  | c :: t => if p c then repeats p t ++ [t] else []

/-- What is left and what the groups hold, for each way to match, the preferred ones first. -/
def ways : Pattern → Text → List (Text × List Text)
  | text w, t => if w <+: t then [(t.drop w.length, [])] else []
  | plus p, t => (repeats p t).map fun rest => (rest, [])
  | seq a b, t => (ways a t).flatMap fun first => (ways b first.1).map fun second => (second.1, first.2 ++ second.2)
  | optional a, t => ways a t ++ [(t, [])]
  | either a b, t => ways a t ++ ways b t
  | group a, t => (ways a t).map fun way => (way.1, t.take (t.length - way.1.length) :: way.2)

/-- `captures`: the match that begins first. -/
def captures (p : Pattern) : Text → Option (List Text)
  | [] => (p.ways []).head?.map (·.2)
  | c :: t => ((p.ways (c :: t)).head?.map (·.2)).or (captures p t)

/-- `captures` of a pattern between `^` and `$`. -/
def capturesWhole (p : Pattern) (t : Text) : Option (List Text) := ((p.ways t).find? (·.1.isEmpty)).map (·.2)

def sequence (ps : List Pattern) : Pattern := ps.foldr seq (text [])

end Pattern

structure Unicode where
  word : Char → Bool
  digit : Char → Bool
  toLowercase : Text → Text

section
variable (u : Unicode)

open Pattern

/-- `\w+(?:-\w+)?` -/
def typePattern : Pattern := .seq (.plus u.word) (.optional (.seq (.text ['-']) (.plus u.word)))

/-- `(\d+\.\d+\.\d+\.\d+)` -/
def versionPattern : Pattern :=
  .group (.sequence [.plus u.digit, .text ['.'], .plus u.digit, .text ['.'], .plus u.digit, .text ['.'], .plus u.digit])

def devicePattern : Pattern := .group (.plus u.word)

/-- `delta_re` -/
def deltaPattern : Pattern :=
  .sequence [.text "remarkable-".toList, typePattern u, .text "-delta-".toList, versionPattern u, .text "-to-".toList,
    versionPattern u, .text "-".toList, devicePattern u, .text "-public.".toList,
    .either (.text "swu".toList) (.either (.text "bin".toList) (.text "delta".toList))]

/-- `re` -/
def imagePattern : Pattern :=
  .sequence [.text "remarkable-".toList, .group (typePattern u), .text "-image-".toList, versionPattern u, .text "-".toList,
    devicePattern u, .text "-public.swu".toList]

end

/-! ## Devices and versions -/

inductive DeviceType where
  | rm1 | rm2 | ferrari | chiappa | tatsu
  deriving DecidableEq

namespace DeviceType

def fromStr (u : Unicode) (s : Text) : Option DeviceType :=
  let name := u.toLowercase s
  if name ∈ ["rm1".toList, "remarkable1".toList, "remarkable 1".toList] then some .rm1
  else if name ∈ ["rm2".toList, "remarkable2".toList, "remarkable 2".toList] then some .rm2
  else if name ∈ ["ferrari".toList, "paper_pro".toList, "paperpro".toList] then some .ferrari
  else if name = "chiappa".toList then some .chiappa
  else if name = "tatsu".toList then some .tatsu
  else none

def asStr : DeviceType → Text
  | .rm1 => "rm1".toList
  | .rm2 => "rm2".toList
  | .ferrari => "ferrari".toList
  | .chiappa => "chiappa".toList
  | .tatsu => "tatsu".toList

/-- `ALL_DEVICES` -/
def all : List DeviceType := [.rm1, .rm2, .ferrari, .chiappa, .tatsu]

end DeviceType

structure FirmwareVersion where
  major : UInt32
  minor : UInt32
  patch : UInt32
  build : UInt32
  deriving DecidableEq

/-- `str::parse::<u32>`: decimal digits after an optional plus sign. -/
def parseU32 (t : Text) : Option UInt32 :=
  (parseU64 t).bind fun n => if n < UInt32.size then some (UInt32.ofNat n) else none

namespace FirmwareVersion

def parse (s : Text) : Option FirmwareVersion :=
  match split '.' s with
  | [major, minor, patch, build] => do
    return ⟨← parseU32 major, ← parseU32 minor, ← parseU32 patch, ← parseU32 build⟩
  | _ => none

def toText (v : FirmwareVersion) : Text :=
  showU64 v.major.toNat ++ '.' :: showU64 v.minor.toNat ++ '.' :: showU64 v.patch.toNat ++ '.' :: showU64 v.build.toNat

def cmp (a b : FirmwareVersion) : Ordering :=
  (compare a.major b.major).then ((compare a.minor b.minor).then ((compare a.patch b.patch).then (compare a.build b.build)))

def isNewerThan (a b : FirmwareVersion) : Bool := a.cmp b == .gt

end FirmwareVersion

inductive ReleaseType where
  | production | memfault | prototype | beta
  deriving DecidableEq

/-- Types that are not known count as production. -/
def ReleaseType.fromStr (s : Text) : ReleaseType :=
  if s = "production".toList then .production
  else if s = "memfault".toList then .memfault
  else if s = "ct-prototype".toList then .prototype
  else if s = "beta".toList then .beta
  else .production

/-! ## The archive -/

structure FirmwareInfo where
  version : FirmwareVersion
  device : DeviceType
  filename : Text
  size : Nat
  checksum : Option Text
  releaseType : ReleaseType
  downloadUrl : Text
  deriving DecidableEq

structure DeltaUpdate where
  fromVersion : FirmwareVersion
  toVersion : FirmwareVersion
  filename : Text
  size : Nat
  downloadUrl : Text
  deriving DecidableEq

/-- The sizes of the files, 0 where they cannot be told, and the public URL as it was given. -/
structure Env where
  unicode : Unicode
  size : Text → Nat
  publicUrl : Text

def Env.baseUrl (env : Env) : Text := env.publicUrl.rdropWhile (· == '/')

/-- The tables while the directory is read. A device without versions is one that is not in the table of versions. -/
structure Scan where
  firmware : Table (DeviceType × Text) FirmwareInfo
  versions : DeviceType → List FirmwareVersion
  deltas : Table (DeviceType × Text × Text) DeltaUpdate

def Scan.start : Scan := ⟨∅, fun _ => [], ∅⟩

/-- `delta_re.captures`: the two versions and the device. -/
def deltaCaptures (env : Env) (filename : Text) : Option (Text × Text × Text) :=
  match (deltaPattern env.unicode).capturesWhole filename with
  | some [before, after, device] => some (before, after, device)
  | _ => none

/-- `re.captures`: the type, the version and the device. -/
def imageCaptures (env : Env) (filename : Text) : Option (Text × Text × Text) :=
  match (imagePattern env.unicode).captures filename with
  | some [release, version, device] => some (release, version, device)
  | _ => none

/-- The loop over the directory, for one file. -/
def scanFile (env : Env) (s : Scan) (filename : Text) : Scan :=
  match deltaCaptures env filename with
  | some (before, after, device) =>
    match FirmwareVersion.parse before, FirmwareVersion.parse after, DeviceType.fromStr env.unicode device with
    | some before, some after, some device =>
      if after.isNewerThan before then
        let url := env.baseUrl ++ "/firmware/v1/delta/".toList ++ device.asStr ++ ['/'] ++ before.toText ++ ['/'] ++ after.toText
        { s with
          deltas := s.deltas.insert (device, before.toText, after.toText) ⟨before, after, filename, env.size filename, url⟩ }
      else s
    | _, _, _ => s
  | none =>
    match imageCaptures env filename with
    | some (release, versionStr, deviceStr) =>
      let releaseType := ReleaseType.fromStr release
      match FirmwareVersion.parse versionStr, DeviceType.fromStr env.unicode deviceStr with
      | some version, some device =>
        let url := env.baseUrl ++ "/firmware/v1/download/".toList ++ versionStr ++ "?device=".toList ++ device.asStr
        if releaseType = .production then
          { s with
            firmware := s.firmware.insert (device, versionStr)
              ⟨version, device, filename, env.size filename, none, releaseType, url⟩
            versions := fun d => if d = device then s.versions d ++ [version] else s.versions d }
        else s
      | _, _ => s
    | none => s

structure FirmwareManager where
  firmware : Table (DeviceType × Text) FirmwareInfo
  latest : DeviceType → Option FirmwareVersion
  versions : DeviceType → List FirmwareVersion
  deltas : Table (DeviceType × Text × Text) DeltaUpdate

/-- Newest first. -/
def sortVersions (versions : List FirmwareVersion) : List FirmwareVersion := versions.mergeSort fun a b => !b.isNewerThan a

/-- `FirmwareManager::new` of a directory that can be read, whose files come in some order. -/
def FirmwareManager.new (env : Env) (files : List Text) : FirmwareManager :=
  let s := files.foldl (scanFile env) Scan.start
  let versions := fun device => sortVersions (s.versions device)
  { firmware := s.firmware
    latest := fun device => (versions device).head?
    versions := versions
    deltas := s.deltas.retain fun key _ => (s.firmware.lookup (key.1, key.2.2)).isSome }

/-! ## The answers -/

structure UpdateCheckResult where
  updateAvailable : Bool
  currentVersion : Text
  latestVersion : Option Text
  firmware : Option FirmwareInfo
  delta : Option DeltaUpdate
  rollbackVersions : List Text
  deriving DecidableEq

inductive ServerError where
  | badRequest (message : Text)
  | notFound (message : Text)
  /-- The answer has no valid headers. -/
  | internal
  deriving DecidableEq

namespace FirmwareManager

def getLatest (m : FirmwareManager) (device : DeviceType) : Option FirmwareInfo :=
  (m.latest device).bind fun version => m.firmware.lookup (device, version.toText)

def getVersion (m : FirmwareManager) (device : DeviceType) (version : Text) : Option FirmwareInfo :=
  m.firmware.lookup (device, version)

def getVersions (m : FirmwareManager) (device : DeviceType) : List FirmwareInfo :=
  (m.versions device).filterMap fun version => m.firmware.lookup (device, version.toText)

def checkUpdate (m : FirmwareManager) (device : DeviceType) (current : Text) : UpdateCheckResult :=
  match FirmwareVersion.parse current with
  | none => ⟨false, current, none, none, none, []⟩
  | some currentVersion =>
    let latest := m.latest device
    let updateAvailable := (latest.map (·.isNewerThan currentVersion)).getD false
    { updateAvailable := updateAvailable
      currentVersion := current
      latestVersion := latest.map (·.toText)
      firmware := if updateAvailable then latest.bind fun v => m.firmware.lookup (device, v.toText) else none
      delta := if updateAvailable then latest.bind fun v => m.deltas.lookup (device, current, v.toText) else none
      rollbackVersions := (((m.versions device).filter fun v => currentVersion.isNewerThan v).take 5).map (·.toText) }

/-- The name of the file of a delta. -/
def getDeltaPath (m : FirmwareManager) (device : DeviceType) (before after : Text) : Option Text :=
  (m.deltas.lookup (device, before, after)).map (·.filename)

/-- The name of the file of an image. -/
def getFirmwarePath (m : FirmwareManager) (device : DeviceType) (version : Text) : Option Text :=
  (m.firmware.lookup (device, version)).map (·.filename)

end FirmwareManager

/-- What may stand in the value of a header. -/
def isHeaderChar (c : Char) : Bool := (0x20 ≤ c.toNat && c.toNat ≠ 0x7F) || c = '\t'

/-- `serve_file`: the file is sent under its own name, if the name can stand in a header. -/
def serveFile (filename : Text) : Except ServerError Text :=
  if filename.all isHeaderChar then .ok filename else .error .internal

/-- The device of a download: the one that is asked for, or the only one that has the version. -/
def downloadDevice (u : Unicode) (m : FirmwareManager) (version : Text) : Option Text → Except ServerError DeviceType
  | some d =>
    match DeviceType.fromStr u d with
    | some device => .ok device
    | none => .error (.badRequest ("Unknown device: ".toList ++ d))
  | none =>
    match DeviceType.all.filter fun d => (m.getVersion d version).isSome with
    | [d] => .ok d
    | _ :: _ :: _ => .error (.badRequest ("Firmware ".toList ++ version ++
        " exists for several devices; add ?device=<rm1|rm2|ferrari|chiappa|tatsu>".toList))
    | [] => .error (.notFound ("Firmware version not found: ".toList ++ version))

/-- `download_firmware`, of an archive in which some files are still there. -/
def downloadFirmware (u : Unicode) (m : FirmwareManager) (present : Text → Bool) (version : Text) (device : Option Text) :
    Except ServerError Text :=
  (downloadDevice u m version device).bind fun device =>
    let notFound := .notFound ("Firmware ".toList ++ version ++ " not found for ".toList ++ device.asStr)
    match m.getVersion device version with
    | none => .error notFound
    | some info =>
      match (m.getFirmwarePath device version).filter present with
      | none => .error notFound
      | some _ => serveFile info.filename

/-- What the router makes of the URL of a download: one segment for the version, and the query. The
percent-encoding is undone by the router. -/
def downloadRequest (decode : Text → Text) (env : Env) (url : Text) : Option (Text × Option Text) :=
  let route := env.baseUrl ++ "/firmware/v1/download/".toList
  if route <+: url then
    let rest := url.drop route.length
    let version := rest.takeWhile (· != '?')
    let query := rest.drop (version.length + 1)
    if version.isEmpty || version.contains '/' then none
    else
      let device := (split '&' query).find? fun pair => "device=".toList <+: pair
      some (decode version, device.map fun pair => decode (pair.drop "device=".toList.length))
  else none

/-! ## Versions -/

theorem parseU32_showU64 (n : UInt32) : parseU32 (showU64 n.toNat) = some n := by
  have hlt : n.toNat < UInt32.size := n.toNat_lt
  rw [parseU32, parseU64_showU64 (hlt.trans (by decide)), Option.bind_some, if_pos hlt, UInt32.ofNat_toNat]

theorem isDigit_of_mem_showU64 {n : Nat} {c : Char} (h : c ∈ showU64 n) : c.isDigit = true :=
  Nat.isDigit_of_mem_toDigits (by decide) (by decide) h

theorem point_not_mem_showU64 (n : Nat) : '.' ∉ showU64 n := fun h => absurd (isDigit_of_mem_showU64 h) (by decide)

namespace FirmwareVersion

theorem parse_toText (v : FirmwareVersion) : parse v.toText = some v := by
  have hsplit : split '.' v.toText = [showU64 v.major.toNat, showU64 v.minor.toNat, showU64 v.patch.toNat, showU64 v.build.toNat] := by
    rw [split, toText]
    simp only [List.append_assoc, List.cons_append]
    rw [splitOn_append_sep _ _ _ (point_not_mem_showU64 _), splitOn_append_sep _ _ _ (point_not_mem_showU64 _),
      splitOn_append_sep _ _ _ (point_not_mem_showU64 _),
      List.splitOn_eq_singleton_of_beq_eq_false fun c hc => beq_false_of_ne fun h => point_not_mem_showU64 _ (h ▸ hc)]
  rw [parse, hsplit]
  dsimp only
  rw [parseU32_showU64, parseU32_showU64, parseU32_showU64, parseU32_showU64]
  rfl

theorem toText_injective : Function.Injective toText := by
  intro v w h
  have hparse := congrArg parse h
  rw [parse_toText, parse_toText] at hparse
  exact Option.some.inj hparse

theorem compare_cases (a b : UInt32) :
    (compare a b = .lt ∧ a.toNat < b.toNat) ∨ (compare a b = .eq ∧ a.toNat = b.toNat) ∨ (compare a b = .gt ∧ b.toNat < a.toNat) := by
  change (compareOfLessAndEq a b = .lt ∧ _) ∨ (compareOfLessAndEq a b = .eq ∧ _) ∨ (compareOfLessAndEq a b = .gt ∧ _)
  unfold compareOfLessAndEq
  by_cases hlt : a < b
  · rw [if_pos hlt]
    exact .inl ⟨rfl, UInt32.lt_iff_toNat_lt.mp hlt⟩
  rw [if_neg hlt]
  rw [UInt32.lt_iff_toNat_lt] at hlt
  by_cases heq : a = b
  · rw [if_pos heq]
    exact .inr (.inl ⟨rfl, congrArg UInt32.toNat heq⟩)
  · rw [if_neg heq]
    rw [← UInt32.toNat_inj] at heq
    exact .inr (.inr ⟨rfl, by omega⟩)

theorem compare_eq_gt {a b : UInt32} : compare a b = .gt ↔ b.toNat < a.toNat := by
  rcases compare_cases a b with ⟨h, hn⟩ | ⟨h, hn⟩ | ⟨h, hn⟩ <;> rw [h] <;> simp <;> omega

theorem compare_eq_eq {a b : UInt32} : compare a b = .eq ↔ a.toNat = b.toNat := by
  rcases compare_cases a b with ⟨h, hn⟩ | ⟨h, hn⟩ | ⟨h, hn⟩ <;> rw [h] <;> simp <;> omega

theorem isNewerThan_iff {a b : FirmwareVersion} :
    a.isNewerThan b = true ↔
      b.major.toNat < a.major.toNat ∨ a.major.toNat = b.major.toNat ∧
        (b.minor.toNat < a.minor.toNat ∨ a.minor.toNat = b.minor.toNat ∧
          (b.patch.toNat < a.patch.toNat ∨ a.patch.toNat = b.patch.toNat ∧ b.build.toNat < a.build.toNat)) := by
  rw [isNewerThan, cmp, beq_iff_eq, Ordering.then_eq_gt, Ordering.then_eq_gt, Ordering.then_eq_gt]
  simp only [compare_eq_gt, compare_eq_eq]

theorem eq_of_not_newer {a b : FirmwareVersion} (h : a.isNewerThan b = false) (h' : b.isNewerThan a = false) : a = b := by
  obtain ⟨a1, a2, a3, a4⟩ := a
  obtain ⟨b1, b2, b3, b4⟩ := b
  rw [← Bool.not_eq_true, isNewerThan_iff] at h h'
  dsimp only at h h'
  rw [mk.injEq, ← UInt32.toNat_inj, ← UInt32.toNat_inj, ← UInt32.toNat_inj, ← UInt32.toNat_inj]
  omega

theorem not_newer_trans {a b c : FirmwareVersion} (h : b.isNewerThan a = false) (h' : c.isNewerThan b = false) :
    c.isNewerThan a = false := by
  rw [← Bool.not_eq_true, isNewerThan_iff] at h h' ⊢
  omega

theorem newer_asymm {a b : FirmwareVersion} (h : a.isNewerThan b = true) : b.isNewerThan a = false := by
  rw [← Bool.not_eq_true, isNewerThan_iff]
  rw [isNewerThan_iff] at h
  omega

theorem not_newer_self (a : FirmwareVersion) : a.isNewerThan a = false := by
  rw [← Bool.not_eq_true, isNewerThan_iff]
  omega

end FirmwareVersion

/-! ## Sorting -/

theorem pairwise_sortVersions (versions : List FirmwareVersion) :
    (sortVersions versions).Pairwise fun a b => b.isNewerThan a = false := by
  have htrans : ∀ a b c : FirmwareVersion, (!b.isNewerThan a) = true → (!c.isNewerThan b) = true → (!c.isNewerThan a) = true := by
    intro a b c h h'
    rw [Bool.not_eq_true'] at h h' ⊢
    exact FirmwareVersion.not_newer_trans h h'
  have htotal : ∀ a b : FirmwareVersion, (!b.isNewerThan a || !a.isNewerThan b) = true := by
    intro a b
    cases h : b.isNewerThan a with
    | false => rfl
    | true =>
      rw [FirmwareVersion.newer_asymm h]
      rfl
  refine (List.pairwise_mergeSort htrans htotal versions).imp ?_
  intro a b h
  rwa [Bool.not_eq_true'] at h

theorem sortVersions_perm (versions : List FirmwareVersion) : (sortVersions versions).Perm versions := List.mergeSort_perm _ _

/-- The order in which versions come does not matter. -/
theorem sortVersions_congr {versions versions' : List FirmwareVersion} (h : versions.Perm versions') :
    sortVersions versions = sortVersions versions' := by
  have hperm := ((sortVersions_perm versions).trans h).trans (sortVersions_perm versions').symm
  apply hperm.eq_of_pairwise _ (pairwise_sortVersions versions) (pairwise_sortVersions versions')
  intro a b _ _ hab hba
  exact FirmwareVersion.eq_of_not_newer hba hab

/-! ## What a file enters -/

/-- The image that is recorded for a file. -/
def imageEntry (env : Env) (filename : Text) : Option ((DeviceType × Text) × FirmwareInfo) :=
  if (deltaCaptures env filename).isSome then none
  else
    (imageCaptures env filename).bind fun captured =>
      (FirmwareVersion.parse captured.2.1).bind fun version =>
        (DeviceType.fromStr env.unicode captured.2.2).bind fun device =>
          if ReleaseType.fromStr captured.1 = .production then
            some ((device, captured.2.1), ⟨version, device, filename, env.size filename, none, .production,
              env.baseUrl ++ "/firmware/v1/download/".toList ++ captured.2.1 ++ "?device=".toList ++ device.asStr⟩)
          else none

/-- The delta that is recorded for a file. -/
def deltaEntry (env : Env) (filename : Text) : Option ((DeviceType × Text × Text) × DeltaUpdate) :=
  (deltaCaptures env filename).bind fun captured =>
    (FirmwareVersion.parse captured.1).bind fun before =>
      (FirmwareVersion.parse captured.2.1).bind fun after =>
        (DeviceType.fromStr env.unicode captured.2.2).bind fun device =>
          if after.isNewerThan before then
            some ((device, before.toText, after.toText), ⟨before, after, filename, env.size filename,
              env.baseUrl ++ "/firmware/v1/delta/".toList ++ device.asStr ++ ['/'] ++ before.toText ++ ['/'] ++ after.toText⟩)
          else none

/-- The version that a file adds to those of a device. -/
def versionOf (env : Env) (device : DeviceType) (filename : Text) : Option FirmwareVersion :=
  (imageEntry env filename).bind fun entry => if entry.1.1 = device then some entry.2.version else none

theorem enter_none {A K V : Type} [DecidableEq K] {entry : A → Option (K × V)} {a : A} (h : entry a = none) (t : Table K V) :
    t.enter entry a = t := by
  rw [Table.enter, h]

theorem enter_some {A K V : Type} [DecidableEq K] {entry : A → Option (K × V)} {a : A} {k : K} {v : V} (h : entry a = some (k, v))
    (t : Table K V) : t.enter entry a = t.insert k v := by
  rw [Table.enter, h]

/-- A scan after a file that enters no image. -/
theorem scan_of_no_image {env : Env} {filename : Text} (h : imageEntry env filename = none) (s : Scan)
    (deltas : Table (DeviceType × Text × Text) DeltaUpdate) :
    (⟨s.firmware.enter (imageEntry env) filename, fun d => s.versions d ++ (versionOf env d filename).toList, deltas⟩ : Scan) =
      { s with deltas := deltas } := by
  have hversion : ∀ d, versionOf env d filename = none := fun d => by rw [versionOf, h, Option.bind_none]
  simp only [enter_none h, hversion, Option.toList_none, List.append_nil]

/-- A file changes the tables by what it enters. -/
theorem scanFile_eq (env : Env) (s : Scan) (filename : Text) :
    scanFile env s filename =
      ⟨s.firmware.enter (imageEntry env) filename, fun d => s.versions d ++ (versionOf env d filename).toList,
        s.deltas.enter (deltaEntry env) filename⟩ := by
  unfold scanFile
  cases hdelta : deltaCaptures env filename with
  | some captured =>
    obtain ⟨before, after, device⟩ := captured
    have himage : imageEntry env filename = none := by
      rw [imageEntry, hdelta]
      rfl
    rw [scan_of_no_image himage]
    dsimp only
    cases hbefore : FirmwareVersion.parse before with
    | none => rw [enter_none (by simp [deltaEntry, hdelta, hbefore])]
    | some before =>
    cases hafter : FirmwareVersion.parse after with
    | none => rw [enter_none (by simp [deltaEntry, hdelta, hafter])]
    | some after =>
    cases hdevice : DeviceType.fromStr env.unicode device with
    | none => rw [enter_none (by simp [deltaEntry, hdelta, hdevice])]
    | some device =>
    dsimp only
    split
    next hnewer =>
      have hentry : deltaEntry env filename = some ((device, before.toText, after.toText), ⟨before, after, filename,
          env.size filename, env.baseUrl ++ "/firmware/v1/delta/".toList ++ device.asStr ++ ['/'] ++ before.toText ++ ['/'] ++
            after.toText⟩) := by
        simp only [deltaEntry, hdelta, hbefore, hafter, hdevice, Option.bind_some, if_pos hnewer]
      rw [enter_some hentry]
    next hnewer => rw [enter_none (by simp [deltaEntry, hdelta, hbefore, hafter, hdevice, hnewer])]
  | none =>
    have hnone : deltaEntry env filename = none := by
      rw [deltaEntry, hdelta]
      rfl
    rw [enter_none hnone]
    dsimp only
    cases hcaptured : imageCaptures env filename with
    | none => rw [scan_of_no_image (by simp [imageEntry, hdelta, hcaptured])]
    | some captured =>
    obtain ⟨release, versionStr, deviceStr⟩ := captured
    dsimp only
    cases hversion : FirmwareVersion.parse versionStr with
    | none => rw [scan_of_no_image (by simp [imageEntry, hdelta, hcaptured, hversion])]
    | some version =>
    cases hdevice : DeviceType.fromStr env.unicode deviceStr with
    | none => rw [scan_of_no_image (by simp [imageEntry, hdelta, hcaptured, hdevice])]
    | some device =>
    dsimp only
    split
    next hrelease =>
      have hentry : imageEntry env filename = some ((device, versionStr), ⟨version, device, filename, env.size filename, none,
          .production, env.baseUrl ++ "/firmware/v1/download/".toList ++ versionStr ++ "?device=".toList ++ device.asStr⟩) := by
        simp only [imageEntry, hdelta, hcaptured, hversion, hdevice, Option.bind_some, if_pos hrelease, Option.isSome_none,
          Bool.false_eq_true, if_false]
      rw [enter_some hentry, hrelease, Scan.mk.injEq]
      refine ⟨rfl, ?_, rfl⟩
      funext d
      rw [versionOf, hentry, Option.bind_some]
      by_cases hd : d = device
      · rw [if_pos hd, if_pos hd.symm]
        rfl
      · rw [if_neg hd, if_neg (Ne.symm hd), Option.toList_none, List.append_nil]
    next hrelease => rw [scan_of_no_image (by simp [imageEntry, hdelta, hcaptured, hversion, hdevice, hrelease])]

/-- What is in the tables after the whole directory. -/
theorem scan_eq (env : Env) (s : Scan) (files : List Text) :
    files.foldl (scanFile env) s =
      ⟨files.foldl (Table.enter (imageEntry env)) s.firmware, fun d => s.versions d ++ files.filterMap (versionOf env d),
        files.foldl (Table.enter (deltaEntry env)) s.deltas⟩ := by
  induction files generalizing s with
  | nil => simp only [List.foldl_nil, List.filterMap_nil, List.append_nil]
  | cons filename files ih =>
    rw [List.foldl_cons, ih, scanFile_eq]
    simp only [List.foldl_cons, List.append_assoc, List.filterMap_cons]
    congr 1
    funext d
    cases versionOf env d filename <;> rfl

section
variable (env : Env) (files : List Text)

theorem firmware_new : (FirmwareManager.new env files).firmware = Table.ofItems (imageEntry env) files := by
  rw [FirmwareManager.new, scan_eq]
  rfl

theorem versions_new (device : DeviceType) :
    (FirmwareManager.new env files).versions device = sortVersions (files.filterMap (versionOf env device)) := by
  rw [FirmwareManager.new, scan_eq]
  rfl

theorem latest_new (device : DeviceType) :
    (FirmwareManager.new env files).latest device = ((FirmwareManager.new env files).versions device).head? := rfl

theorem deltas_new :
    (FirmwareManager.new env files).deltas = (Table.ofItems (deltaEntry env) files).retain fun key _ =>
      ((Table.ofItems (imageEntry env) files).lookup (key.1, key.2.2)).isSome := by
  rw [FirmwareManager.new, scan_eq]
  rfl

end
end Firmware
