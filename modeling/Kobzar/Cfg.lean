import Kobzar.Library.Best
import Kobzar.PageStore.Store

/-!
# Devices of paths

The configuration lists devices with the paths they are mounted at. `device_at` goes through all of them, keeps the
first with the most components among those whose path is one above the given one, and falls back to a device of its
own when there is none (`deviceAt_longest_match`).
-/

namespace Kobzar

open Best

/-- `DeviceConfig`: how the files under a path are read and written. -/
structure DeviceConfig where
  path : Path
  concurrency : Option U32
  ioCombineBytes : U64
  deriving DecidableEq, Repr

/-- `DeviceConfig::default`. -/
def DeviceConfig.default : DeviceConfig where
  path := ["/"]
  concurrency := some 1
  ioCombineBytes := 8192

/-- `ConfigFile`, as far as devices are concerned. -/
structure ConfigFile where
  ioDevice : List DeviceConfig
  deriving DecidableEq, Repr

/-- `Cfg`, as far as devices are concerned. -/
structure Cfg where
  file : ConfigFile
  deriving DecidableEq, Repr

/-- What `device_at` refers to: one of the configured devices, or the static `DEFAULT_DEVICE`. -/
inductive DeviceRef where
  | configured (device : DeviceConfig)
  | defaultDevice
  deriving DecidableEq, Repr

/-- The device that is referred to. -/
def DeviceRef.get : DeviceRef → DeviceConfig
  | .configured device => device
  | .defaultDevice => .default

namespace Cfg

/-- The body of the loop of `device_at`: the best device so far, with the number of its components. -/
def bestDevice (path : Path) (best : Option (DeviceConfig × Nat)) (device : DeviceConfig) :
    Option (DeviceConfig × Nat) :=
  if device.path.isPrefixOf path then
    let cnt := device.path.length
    match best with
    | some (_, bestCnt) => if bestCnt < cnt then some (device, cnt) else best
    | none => some (device, cnt)
  else best

/-- `device_at`. -/
def deviceAt (self : Cfg) (path : Path) : DeviceRef :=
  match self.file.ioDevice.foldl (bestDevice path) none with
  | some (device, _) => .configured device
  | none => .defaultDevice

/-- The number of components of a device's path. -/
def depth (device : DeviceConfig) : Nat := device.path.length

/-- The configured devices whose paths the given one starts with. -/
def matching (self : Cfg) (path : Path) : List DeviceConfig :=
  self.file.ioDevice.filter fun device => device.path.isPrefixOf path

variable {cfg cfg' : Cfg} {path : Path} {device : DeviceConfig}

theorem mem_matching : device ∈ cfg.matching path ↔ device ∈ cfg.file.ioDevice ∧ device.path <+: path := by
  rw [matching, List.mem_filter, List.isPrefixOf_iff_prefix]

/-- The loop keeps the best device so far. -/
theorem bestDevice_eq_keepBest (path : Path) :
    bestDevice path = keepBest (fun device => device.path.isPrefixOf path) depth := by
  funext best device
  unfold bestDevice keepBest
  cases best with
  | none => rfl
  | some best => rfl

/-- The device found is the first of those with the most components. -/
theorem deviceAt_eq_argmax (cfg : Cfg) (path : Path) : cfg.deviceAt path =
    match (cfg.matching path).argmax depth with
    | some device => .configured device
    | none => .defaultDevice := by
  rw [deviceAt, bestDevice_eq_keepBest, foldl_keepBest, ← matching]
  cases (cfg.matching path).argmax depth with
  | none => rfl
  | some device => rfl

/-- The default device is found exactly when no path above the given one is configured. -/
theorem deviceAt_eq_defaultDevice_iff :
    cfg.deviceAt path = .defaultDevice ↔ ∀ device ∈ cfg.file.ioDevice, ¬device.path <+: path := by
  have hnone : cfg.matching path = [] ↔ ∀ device ∈ cfg.file.ioDevice, ¬device.path <+: path := by
    simp only [List.eq_nil_iff_forall_not_mem, mem_matching, not_and]
  rw [← hnone, ← List.argmax_eq_none (f := depth), deviceAt_eq_argmax]
  cases (cfg.matching path).argmax depth with
  | none => simp
  | some device => simp

/-- A configured device that is found matches, and no other that matches has more components. -/
theorem longest_of_deviceAt (h : cfg.deviceAt path = .configured device) :
    (device ∈ cfg.file.ioDevice ∧ device.path <+: path) ∧
      ∀ other ∈ cfg.file.ioDevice, other.path <+: path → other.path.length ≤ device.path.length := by
  rw [deviceAt_eq_argmax] at h
  cases hbest : (cfg.matching path).argmax depth with
  | none =>
    rw [hbest] at h
    cases h
  | some best =>
    rw [hbest] at h
    cases h
    refine ⟨mem_matching.mp (List.argmax_mem hbest), fun other hother hprefix => ?_⟩
    show depth other ≤ depth device
    exact List.le_of_mem_argmax (mem_matching.mpr ⟨hother, hprefix⟩) hbest

/-- Among devices with different paths, those that match have different numbers of components: two prefixes of one
path with as many components are the same. -/
theorem injOn_length_matching (hpaths : (cfg.file.ioDevice.map DeviceConfig.path).Nodup) :
    Set.InjOn depth {device | device ∈ cfg.matching path} := by
  intro device hdevice other hother hlength
  obtain ⟨hmem, hprefix⟩ := mem_matching.mp hdevice
  obtain ⟨hmem', hprefix'⟩ := mem_matching.mp hother
  have hpath : device.path = other.path :=
    (List.prefix_of_prefix_length_le hprefix hprefix' (Nat.le_of_eq hlength)).eq_of_length hlength
  exact List.inj_on_of_nodup_map hpaths hmem hmem' hpath

/-- The order in which devices with different paths are configured does not matter. -/
theorem deviceAt_perm (hpaths : (cfg.file.ioDevice.map DeviceConfig.path).Nodup)
    (hperm : cfg.file.ioDevice.Perm cfg'.file.ioDevice) : cfg.deviceAt path = cfg'.deviceAt path := by
  have hbest := argmax_eq_of_perm (hperm.filter fun device => device.path.isPrefixOf path) (injOn_length_matching hpaths)
  rw [deviceAt_eq_argmax, deviceAt_eq_argmax, matching, matching, hbest]

end Cfg

/-- Which device `device_at` finds: one whose path is a prefix of the given one, with at least as many components
as every other such device, and the default one exactly when there is none; whatever the order in which devices
with different paths are configured. -/
theorem deviceAt_longest_match (cfg : Cfg) (path : Path) :
    (∀ device, cfg.deviceAt path = .configured device → (device ∈ cfg.file.ioDevice ∧ device.path <+: path) ∧
      ∀ other ∈ cfg.file.ioDevice, other.path <+: path → other.path.length ≤ device.path.length) ∧
    (cfg.deviceAt path = .defaultDevice ↔ ∀ device ∈ cfg.file.ioDevice, ¬device.path <+: path) ∧
    ((cfg.file.ioDevice.map DeviceConfig.path).Nodup → ∀ cfg' : Cfg, cfg.file.ioDevice.Perm cfg'.file.ioDevice →
      cfg.deviceAt path = cfg'.deviceAt path) :=
  ⟨fun _ => Cfg.longest_of_deviceAt, Cfg.deviceAt_eq_defaultDevice_iff, fun hpaths _ => Cfg.deviceAt_perm hpaths⟩

/-- A device in a directory of the default one. -/
def mountedDevice : DeviceConfig where
  path := ["/", "mnt"]
  concurrency := some 4
  ioCombineBytes := 65536

/-- The device at `/mnt` is found for what lies under it, before and behind the one at `/`. -/
theorem deviceAt_longest_match_nested :
    ({ file := { ioDevice := [.default, mountedDevice] } } : Cfg).deviceAt ["/", "mnt", "wal"] =
        .configured mountedDevice ∧
      ({ file := { ioDevice := [mountedDevice, .default] } } : Cfg).deviceAt ["/", "mnt", "wal"] =
        .configured mountedDevice := by
  refine ⟨by decide, ?_⟩
  rw [← (deviceAt_longest_match { file := { ioDevice := [.default, mountedDevice] } } ["/", "mnt", "wal"]).2.2
    (by decide) _
    (List.Perm.swap _ _ [])]
  decide

end Kobzar
