import DisKverbs.Ledger
import DisKverbs.StepSystem
import Mathlib.Data.List.Infix

namespace DisKverbs

open Cleanup Ledger StepSystem

/-- The name of a device or a driver, without the 0 at its end. -/
abbrev Name := List Char

/-- `strncmp(s, t, n) == 0`. -/
def strncmpEq : Name → Name → Nat → Bool
  | _, _, 0 => true
  | [], [], _ + 1 => true
  | a :: s, b :: t, n + 1 => a = b && strncmpEq s t n
  | _, _, _ + 1 => false

def busMatch (dev drv : Name) : Bool := strncmpEq dev drv drv.length

def disRopcieName : Name := ['d', 'i', 's', '-', 'r', 'o', 'p', 'c', 'i', 'e']

/-- What the modules register or allocate; an IB device by the address of its memory. -/
inductive DriverRes
  | busType
  | busDev
  | driver
  | device (name : Name)
  | ibDev (p : Nat)
  | ibReg (p : Nat)
  deriving DecidableEq

/-- What the RDMA core answers to a probe. -/
structure ProbeEnv where
  alloc : Bool
  register : Bool

/-- The modules that are loaded, the devices on the bus and those that are bound to the driver, and
`disdev`, where 0 is NULL. `inits`, `destroys`, `reconfFails` and `destroyFails` count calls of the
SCI library: those that succeeded, and those that failed. -/
structure Modules where
  sciIf : Bool
  bus : Bool
  driver : Bool
  device : Bool
  devices : List Name
  bound : List Name
  disdev : Nat
  fresh : Nat
  log : List (Event DriverRes)
  inits : Nat
  destroys : Nat
  reconfFails : Nat
  destroyFails : Nat

def Modules.add (s : Modules) (es : List (Event DriverRes)) : Modules :=
  { s with log := s.log ++ es }

def disDriverProbe (env : ProbeEnv) (s : Modules) : Int × Modules :=
  if env.alloc = false then (-1, { s with disdev := 0 })
  else
    let p := s.fresh
    let s := { s with disdev := p, fresh := p + 1 }.add [.acquire (.ibDev p)]
    if env.register = false then (-1, s.add [.release (.ibDev s.disdev)])
    else (0, s.add [.acquire (.ibReg s.disdev)])

def disDriverRemove (s : Modules) : Modules :=
  s.add [.release (.ibReg s.disdev), .release (.ibDev s.disdev)]

/-- What the driver core does with a device that has no driver yet. -/
def probeDevice (name : Name) (env : ProbeEnv) (s : Modules) : Modules :=
  if busMatch name disRopcieName then
    match disDriverProbe env s with
    | (0, s') => { s' with bound := name :: s'.bound }
    | (_, s') => s'
  else s

/-- What it does before a device or its driver goes. -/
def removeDevice (name : Name) (s : Modules) : Modules :=
  if name ∈ s.bound then { disDriverRemove s with bound := s.bound.erase name } else s

/-- `device_register`, which refuses a name that is taken, and probes the device. -/
def deviceRegister (name : Name) (granted : Bool) (env : ProbeEnv) (s : Modules) : Int × Modules :=
  if granted = false ∨ name ∈ s.devices then (-1, s)
  else
    let s := { s with devices := name :: s.devices }.add [.acquire (.device name)]
    (0, if s.driver then probeDevice name env s else s)

def deviceUnregister (name : Name) (s : Modules) : Modules :=
  { removeDevice name s with devices := s.devices.erase name }.add [.release (.device name)]

def disSciIfInit (init reconf : Bool) (s : Modules) : Int × Modules :=
  if init = false then (-1, s)
  else
    let s := { s with inits := s.inits + 1 }
    if reconf = false then (-1, { s with reconfFails := s.reconfFails + 1 }) else (0, s)

def disSciIfExit (destroy : Bool) (s : Modules) : Modules :=
  if destroy then { s with destroys := s.destroys + 1 }
  else { s with destroyFails := s.destroyFails + 1 }

def disBusInit (busRegister deviceRegister : Bool) (s : Modules) : Int × Modules :=
  if busRegister = false then (-1, s)
  else
    let s := s.add [.acquire .busType]
    if deviceRegister = false then (-1, s.add [.release .busType])
    else (0, s.add [.acquire .busDev])

def disBusExit (s : Modules) : Modules := s.add [.release .busDev, .release .busType]

/-- `driver_register` probes every device on the bus. -/
def disDriverInit (driverRegister : Bool) (env : Name → ProbeEnv) (s : Modules) : Int × Modules :=
  if driverRegister = false then (-1, s)
  else
    (0, s.devices.foldl (fun s name => probeDevice name (env name) s)
      ({ s with driver := true }.add [.acquire .driver]))

def disDriverExit (s : Modules) : Modules :=
  { s.bound.foldl (fun s name => removeDevice name s) s with driver := false }.add
    [.release .driver]

def disDeviceInit (granted : Bool) (env : ProbeEnv) (s : Modules) : Int × Modules :=
  match deviceRegister disRopcieName granted env s with
  | (0, s) => (0, s)
  | (_, s) => (-1, s)

def disDeviceExit (s : Modules) : Modules := deviceUnregister disRopcieName s

/-- The loads and unloads of the four modules, and what other modules do on the bus. -/
inductive ModuleAct
  | loadSciIf (init reconf : Bool)
  | unloadSciIf (destroy : Bool)
  | loadBus (busRegister deviceRegister : Bool)
  | unloadBus
  | loadDriver (driverRegister : Bool) (env : Name → ProbeEnv)
  | unloadDriver
  | loadDevice (granted : Bool) (env : ProbeEnv)
  | unloadDevice
  | addOther (name : Name) (granted : Bool) (env : ProbeEnv)
  | removeOther (name : Name)

/-- Whether the kernel admits a load or an unload: a module is loaded after those whose symbols it
uses, and unloaded before them. -/
def ModuleAct.admitted (s : Modules) : ModuleAct → Bool
  | .loadSciIf .. => !s.sciIf
  | .unloadSciIf _ => s.sciIf && !s.driver
  | .loadBus .. => !s.bus
  | .unloadBus => s.bus && !s.driver && s.devices.isEmpty
  | .loadDriver .. => !s.driver && s.bus && s.sciIf
  | .unloadDriver => s.driver
  | .loadDevice .. => !s.device && s.bus
  | .unloadDevice => s.device
  | .addOther .. => s.bus
  | .removeOther name => decide (name ∈ s.devices) && !(s.device && name = disRopcieName)

/-- A module stays loaded when its init function returns 0. -/
def moduleRun (s : Modules) : ModuleAct → Modules
  | .loadSciIf init reconf =>
    match disSciIfInit init reconf s with
    | (0, s) => { s with sciIf := true }
    | (_, s) => s
  | .unloadSciIf destroy => { disSciIfExit destroy s with sciIf := false }
  | .loadBus busRegister deviceRegister =>
    match disBusInit busRegister deviceRegister s with
    | (0, s) => { s with bus := true }
    | (_, s) => s
  | .unloadBus => { disBusExit s with bus := false }
  | .loadDriver driverRegister env => (disDriverInit driverRegister env s).2
  | .unloadDriver => disDriverExit s
  | .loadDevice granted env =>
    match disDeviceInit granted env s with
    | (0, s) => { s with device := true }
    | (_, s) => s
  | .unloadDevice => { disDeviceExit s with device := false }
  | .addOther name granted env => (deviceRegister name granted env s).2
  | .removeOther name => deviceUnregister name s

def moduleStep (s : Modules) (a : ModuleAct) : Option Modules :=
  if a.admitted s then some (moduleRun s a) else none

def ModulesInit (s : Modules) : Prop :=
  s = ⟨false, false, false, false, [], [], 0, 1, [], 0, 0, 0, 0⟩

/-- At most one device on the bus is one that the driver takes. -/
def OneMatch (s : Modules) : ModuleAct → Prop
  | .loadDevice .. => ∀ name ∈ s.devices, busMatch name disRopcieName = false
  | .addOther name .. => busMatch name disRopcieName = true →
      ∀ other ∈ s.devices, busMatch other disRopcieName = false
  | _ => True

/-- What is registered beside the IB device. -/
def Modules.registered (s : Modules) : Finset DriverRes :=
  (if s.bus then {.busType, .busDev} else ∅) ∪ (if s.driver then {.driver} else ∅) ∪
    (s.devices.map DriverRes.device).toFinset

/-- The IB device of the device that is bound. -/
def Modules.ibHeld (s : Modules) : Finset DriverRes :=
  if s.bound.isEmpty then ∅ else {.ibDev s.disdev, .ibReg s.disdev}

structure ModulesInv (s : Modules) : Prop where
  nodup : s.devices.Nodup
  one : (s.devices.filter (busMatch · disRopcieName)).length ≤ 1
  own : s.device = true → disRopcieName ∈ s.devices
  onBus : s.bus = false → s.devices = [] ∧ s.driver = false
  sciIf : s.driver = true → s.sciIf = true
  bound : s.bound = [] ∨ ∃ name ∈ s.devices, s.bound = [name] ∧ s.driver = true ∧
    busMatch name disRopcieName = true ∧ 0 < s.disdev ∧ s.disdev < s.fresh
  fresh : 0 < s.fresh
  log : replay ∅ s.log = some (s.registered ∪ s.ibHeld)
  calls : s.inits = s.destroys + s.reconfFails + s.destroyFails + if s.sciIf then 1 else 0

section

variable {s t : Modules} {name : Name}

theorem ibDev_registered (p : Nat) : .ibDev p ∉ s.registered ∧ .ibReg p ∉ s.registered := by
  unfold Modules.registered
  constructor
  · cases s.bus <;> cases s.driver <;> simp
  · cases s.bus <;> cases s.driver <;> simp

theorem ibHeld_nil (hb : s.bound = []) : s.ibHeld = ∅ := by
  simp [Modules.ibHeld, hb]

theorem ibHeld_one (hb : s.bound = [name]) : s.ibHeld = {.ibDev s.disdev, .ibReg s.disdev} := by
  simp [Modules.ibHeld, hb]

theorem device_ibHeld (name : Name) : .device name ∉ s.ibHeld := by
  unfold Modules.ibHeld
  split <;> simp

theorem device_registered : .device name ∈ s.registered ↔ name ∈ s.devices := by
  simp only [Modules.registered]
  cases s.bus <;> cases s.driver <;> simp

/-- A probe has nothing to do with the device, or fails, or binds it. -/
inductive ProbeMove (name : Name) (s : Modules) : Modules → Prop
  | other : busMatch name disRopcieName = false → ProbeMove name s s
  | noMemory : ProbeMove name s { s with disdev := 0 }
  | refused : ProbeMove name s { s with
      disdev := s.fresh
      fresh := s.fresh + 1
      log := s.log ++ [.acquire (.ibDev s.fresh)] ++ [.release (.ibDev s.fresh)] }
  | bound : busMatch name disRopcieName = true → ProbeMove name s { s with
      disdev := s.fresh
      fresh := s.fresh + 1
      log := s.log ++ [.acquire (.ibDev s.fresh)] ++ [.acquire (.ibReg s.fresh)]
      bound := name :: s.bound }

theorem probeDevice_move (name : Name) (env : ProbeEnv) (s : Modules) :
    ProbeMove name s (probeDevice name env s) := by
  obtain ⟨alloc, register⟩ := env
  unfold probeDevice
  split
  next hm =>
    cases alloc with
    | false => exact .noMemory
    | true =>
      cases register with
      | false => exact .refused
      | true => exact .bound hm
  next hm => exact .other (by simpa using hm)

/-- The driver's probe of a device, when no device is bound. -/
theorem ModulesInv.probe (hi : ModulesInv s) (hb : s.bound = []) (hd : s.driver = true)
    (hn : name ∈ s.devices) (env : ProbeEnv) : ModulesInv (probeDevice name env s) := by
  have hlog := hi.log
  rw [ibHeld_nil hb, Finset.union_empty] at hlog
  obtain ⟨hdev, hreg⟩ := ibDev_registered (s := s) s.fresh
  have hmove := probeDevice_move name env s
  generalize probeDevice name env s = t at hmove ⊢
  cases hmove with
  | other => exact hi
  | noMemory =>
    refine ⟨hi.nodup, hi.one, hi.own, hi.onBus, hi.sciIf, .inl hb, hi.fresh, ?_, hi.calls⟩
    rw [ibHeld_nil (s := { s with disdev := 0 }) hb, Finset.union_empty]
    exact hlog
  | refused =>
    refine ⟨hi.nodup, hi.one, hi.own, hi.onBus, hi.sciIf, .inl hb, Nat.succ_pos _, ?_, hi.calls⟩
    rw [ibHeld_nil (by exact hb), Finset.union_empty]
    refine replay_then (replay_then hlog (replay_acquire hdev)) ?_
    rw [replay_release (Finset.mem_insert_self ..), Finset.erase_insert hdev]
    rfl
  | bound hm =>
    refine ⟨hi.nodup, hi.one, hi.own, hi.onBus, hi.sciIf, .inr ⟨name, hn, ?_, hd, hm, hi.fresh,
      Nat.lt_succ_self _⟩, Nat.succ_pos _, ?_, hi.calls⟩
    · show name :: s.bound = [name]
      rw [hb]
    · have hone : name :: s.bound = [name] := by rw [hb]
      rw [ibHeld_one (by exact hone)]
      refine (replay_then (replay_then hlog (replay_acquire hdev)) (replay_acquire ?_)).trans ?_
      · simp [hreg]
      · congr 1
        show insert (.ibReg s.fresh) (insert (.ibDev s.fresh) s.registered) =
          s.registered ∪ {.ibDev s.fresh, .ibReg s.fresh}
        ext r
        simp only [Finset.mem_insert, Finset.mem_union, Finset.mem_singleton]
        tauto

/-- The driver core takes the driver away from the device that is bound. -/
theorem ModulesInv.remove (hi : ModulesInv s) (name : Name) :
    ModulesInv (removeDevice name s) ∧ name ∉ (removeDevice name s).bound := by
  unfold removeDevice
  split
  next hin =>
    rcases hi.bound with hb | ⟨name', _, hb, hd, _, hpos, hlt⟩
    · simp [hb] at hin
    · have hname : name = name' := by simpa [hb] using hin
      subst hname
      have hempty : s.bound.erase name = [] := by simp [hb]
      have hlog := hi.log
      rw [ibHeld_one hb] at hlog
      obtain ⟨hdev, hreg⟩ := ibDev_registered (s := s) s.disdev
      refine ⟨⟨hi.nodup, hi.one, hi.own, hi.onBus, hi.sciIf, .inl hempty, hi.fresh, ?_, hi.calls⟩,
        by simp [hempty]⟩
      rw [ibHeld_nil (by exact hempty), Finset.union_empty]
      have hset : s.registered ∪ {.ibDev s.disdev, .ibReg s.disdev} =
          insert (.ibReg s.disdev) (insert (.ibDev s.disdev) s.registered) := by
        ext r
        simp only [Finset.mem_insert, Finset.mem_union, Finset.mem_singleton]
        tauto
      have hreg' : DriverRes.ibReg s.disdev ∉ insert (DriverRes.ibDev s.disdev) s.registered := by
        simp [hreg]
      rw [hset] at hlog
      have hfirst := replay_then hlog (replay_release (Finset.mem_insert_self ..))
      rw [Finset.erase_insert hreg'] at hfirst
      have hsecond := replay_then hfirst (replay_release (Finset.mem_insert_self ..))
      rw [Finset.erase_insert hdev, List.append_assoc] at hsecond
      exact hsecond
  next hin => exact ⟨hi, hin⟩

theorem removeDevice_frame (name : Name) (s : Modules) :
    (removeDevice name s).devices = s.devices ∧ (removeDevice name s).driver = s.driver ∧
      (removeDevice name s).bus = s.bus ∧ (removeDevice name s).device = s.device := by
  unfold removeDevice
  split <;> exact ⟨rfl, rfl, rfl, rfl⟩

theorem registered_erase (hn : s.devices.Nodup) (name : Name) {devices : List Name}
    (hd : devices = s.devices.erase name) :
    ({ s with devices := devices } : Modules).registered = s.registered.erase (.device name) := by
  ext r
  have hmem (r' : Name) : r' ∈ s.devices.erase name ↔ r' ≠ name ∧ r' ∈ s.devices :=
    hn.mem_erase_iff
  subst hd
  simp only [Modules.registered, Finset.mem_erase, Finset.mem_union, List.mem_toFinset,
    List.mem_map, hmem]
  cases r <;> cases s.bus <;> cases s.driver <;> simp

theorem ModulesInv.unregister (hi : ModulesInv s) (hn : name ∈ s.devices) {device : Bool}
    (hown : device = true → s.device = true ∧ disRopcieName ≠ name) :
    ModulesInv { deviceUnregister name s with device := device } := by
  obtain ⟨hr, hout⟩ := hi.remove name
  obtain ⟨hdevices, hdriver, hbus, hdevice⟩ := removeDevice_frame name s
  have herase : ∀ {other}, other ∈ s.devices → other ≠ name → other ∈ s.devices.erase name :=
    fun ho hne => (List.mem_erase_of_ne hne).mpr ho
  refine ⟨hi.nodup.erase name, ?_, ?_, ?_, hr.sciIf, ?_, hr.fresh, ?_, hr.calls⟩
  · exact le_trans (List.Sublist.length_le (List.erase_sublist.filter _)) hi.one
  · intro hd
    obtain ⟨hd, hne⟩ := hown hd
    exact herase (hi.own hd) hne
  · intro hoff
    have hoff' : s.bus = false := hbus.symm.trans hoff
    simp [(hi.onBus hoff').1] at hn
  · rcases hr.bound with hb | ⟨other, ho, hb, hd, hm, hpos, hlt⟩
    · exact .inl hb
    · have hne : other ≠ name := by
        rintro rfl
        simp [hb] at hout
      rw [hdevices] at ho
      exact .inr ⟨other, herase ho hne, hb, hd, hm, hpos, hlt⟩
  · have hin : DriverRes.device name ∈ (removeDevice name s).registered ∪
        (removeDevice name s).ibHeld := by
      refine Finset.mem_union_left _ (device_registered.mpr ?_)
      rw [hdevices]
      exact hn
    refine (replay_then hr.log (replay_release hin)).trans ?_
    congr 1
    rw [Finset.erase_union_distrib, Finset.erase_eq_of_notMem (device_ibHeld name),
      ← registered_erase hr.nodup name rfl, hdevices]
    rfl

theorem ModulesInv.register (hi : ModulesInv s) (hbus : s.bus = true)
    (hone : busMatch name disRopcieName = true →
      ∀ other ∈ s.devices, busMatch other disRopcieName = false) (granted : Bool) (env : ProbeEnv) :
    ModulesInv (deviceRegister name granted env s).2 := by
  unfold deviceRegister
  split
  next => exact hi
  next hfree =>
    have hnew : name ∉ s.devices := fun hin => hfree (.inr hin)
    let u : Modules := { s with devices := name :: s.devices }.add [.acquire (.device name)]
    have hu : ModulesInv u := by
      refine ⟨List.nodup_cons.mpr ⟨hnew, hi.nodup⟩, ?_, fun hd => List.mem_cons_of_mem _ (hi.own hd),
        fun hoff => ?_, hi.sciIf, ?_, hi.fresh, ?_, hi.calls⟩
      · by_cases hm : busMatch name disRopcieName = true
        · have hnone : s.devices.filter (busMatch · disRopcieName) = [] :=
            List.filter_eq_nil_iff.mpr fun other ho => by simp [hone hm other ho]
          simp [u, Modules.add, hm, hnone]
        · simpa [u, Modules.add, hm] using hi.one
      · have hoff' : s.bus = false := hoff
        simp [hbus] at hoff'
      · rcases hi.bound with hb | ⟨other, ho, hrest⟩
        · exact .inl hb
        · exact .inr ⟨other, List.mem_cons_of_mem _ ho, hrest⟩
      · have hout : DriverRes.device name ∉ s.registered ∪ s.ibHeld := by
          rw [Finset.mem_union, device_registered]
          exact not_or.mpr ⟨hnew, device_ibHeld name⟩
        refine (replay_then hi.log (replay_acquire hout)).trans ?_
        congr 1
        rw [← Finset.insert_union]
        congr 1
        show insert (DriverRes.device name) s.registered =
          ({ s with devices := name :: s.devices } : Modules).registered
        simp only [Modules.registered, List.map_cons, List.toFinset_cons, Finset.union_insert]
    show ModulesInv (if u.driver then probeDevice name env u else u)
    split
    next hd =>
      by_cases hm : busMatch name disRopcieName = true
      · have hb : u.bound = [] := by
          rcases hi.bound with hb | ⟨other, ho, _, _, hmatch, _⟩
          · exact hb
          · simp [hone hm other ho] at hmatch
        exact hu.probe hb hd List.mem_cons_self env
      · rw [probeDevice, if_neg hm]
        exact hu
    next => exact hu

theorem deviceRegister_cases (name : Name) (granted : Bool) (env : ProbeEnv) (s : Modules) :
    deviceRegister name granted env s = (-1, s) ∨
      ∃ u, deviceRegister name granted env s = (0, u) ∧ name ∈ u.devices := by
  unfold deviceRegister
  split
  next => exact .inl rfl
  next =>
    refine .inr ⟨_, rfl, ?_⟩
    split
    next =>
      have hmove := probeDevice_move name env
        ({ s with devices := name :: s.devices }.add [.acquire (.device name)])
      generalize probeDevice name env _ = u at hmove ⊢
      cases hmove <;> exact List.mem_cons_self
    next => exact List.mem_cons_self

/-- `driver_register` comes to the one device that the driver takes, if there is one. -/
theorem foldl_probe (env : Name → ProbeEnv) (names : List Name) (s : Modules) :
    names.foldl (fun s name => probeDevice name (env name) s) s =
      (names.filter (busMatch · disRopcieName)).foldl
        (fun s name => probeDevice name (env name) s) s := by
  rw [List.foldl_filter]
  congr 1
  funext s name
  split
  next => rfl
  next hm => rw [probeDevice, if_neg hm]

theorem ModulesInv.driverInit (hi : ModulesInv s) (hoff : s.driver = false) (hbus : s.bus = true)
    (hsci : s.sciIf = true) (driverRegister : Bool) (env : Name → ProbeEnv) :
    ModulesInv (disDriverInit driverRegister env s).2 := by
  unfold disDriverInit
  split
  next => exact hi
  next =>
    have hb : s.bound = [] := by
      rcases hi.bound with hb | ⟨_, _, _, hd, _⟩
      · exact hb
      · simp [hoff] at hd
    let u : Modules := { s with driver := true }.add [.acquire .driver]
    have hu : ModulesInv u := by
      refine ⟨hi.nodup, hi.one, hi.own, fun hoff' => ?_, fun _ => hsci, .inl hb, hi.fresh, ?_,
        hi.calls⟩
      · have hbus' : s.bus = false := hoff'
        simp [hbus] at hbus'
      · have hlog := hi.log
        rw [ibHeld_nil hb, Finset.union_empty] at hlog
        have hout : DriverRes.driver ∉ s.registered := by
          simp only [Modules.registered, hoff, hbus]
          simp
        rw [ibHeld_nil (s := u) hb, Finset.union_empty]
        refine (replay_then hlog (replay_acquire hout)).trans ?_
        congr 1
        show insert DriverRes.driver s.registered =
          ({ s with driver := true } : Modules).registered
        simp only [Modules.registered, hoff, Bool.false_eq_true, if_false, if_true,
          Finset.union_empty]
        rw [Finset.union_assoc, Finset.singleton_union, Finset.union_insert]
    show ModulesInv (s.devices.foldl (fun s name => probeDevice name (env name) s) u)
    rw [foldl_probe]
    have hone := hi.one
    cases hf : s.devices.filter (busMatch · disRopcieName) with
    | nil => exact hu
    | cons name rest =>
      have hrest : rest = [] := by
        rw [hf] at hone
        simpa using hone
      have hin : name ∈ s.devices := by
        have hmem : name ∈ s.devices.filter (busMatch · disRopcieName) := by
          rw [hf]
          exact List.mem_cons_self
        exact (List.mem_filter.mp hmem).1
      rw [hrest]
      exact hu.probe hb rfl hin (env name)

theorem ModulesInv.driverExit (hi : ModulesInv s) (hon : s.driver = true) :
    ModulesInv (disDriverExit s) := by
  have hremoved : ∃ u, s.bound.foldl (fun s name => removeDevice name s) s = u ∧ ModulesInv u ∧
      u.bound = [] ∧ u.driver = true := by
    rcases hi.bound with hb | ⟨name, _, hb, _⟩
    · exact ⟨s, by rw [hb]; rfl, hi, hb, hon⟩
    · obtain ⟨hr, hout⟩ := hi.remove name
      refine ⟨removeDevice name s, by rw [hb]; rfl, hr, ?_,
        (removeDevice_frame name s).2.1.trans hon⟩
      simp [removeDevice, hb]
  obtain ⟨u, hfold, hu, hb, hd⟩ := hremoved
  unfold disDriverExit
  rw [hfold]
  refine ⟨hu.nodup, hu.one, hu.own, fun hoff => ⟨(hu.onBus hoff).1, rfl⟩, ?_, .inl hb, hu.fresh, ?_,
    hu.calls⟩
  · intro hon
    simp [Modules.add] at hon
  · have hlog := hu.log
    rw [ibHeld_nil hb, Finset.union_empty] at hlog
    have hin : DriverRes.driver ∈ u.registered := by
      simp [Modules.registered, hd]
    rw [ibHeld_nil (by exact hb), Finset.union_empty]
    refine (replay_then hlog (replay_release hin)).trans ?_
    congr 1
    show u.registered.erase DriverRes.driver = ({ u with driver := false } : Modules).registered
    ext r
    simp only [Modules.registered, hd, if_true, Bool.false_eq_true, if_false, Finset.mem_erase,
      Finset.mem_union, List.mem_toFinset, List.mem_map]
    cases r <;> cases u.bus <;> simp

/-- With no bus there is nothing. -/
theorem ModulesInv.empty (hi : ModulesInv s) (hoff : s.bus = false) :
    s.devices = [] ∧ s.driver = false ∧ s.bound = [] ∧ replay ∅ s.log = some ∅ := by
  obtain ⟨hdevices, hdriver⟩ := hi.onBus hoff
  have hb : s.bound = [] := by
    rcases hi.bound with hb | ⟨_, _, _, hd, _⟩
    · exact hb
    · simp [hdriver] at hd
  refine ⟨hdevices, hdriver, hb, ?_⟩
  rw [hi.log]
  simp [Modules.registered, ibHeld_nil hb, hoff, hdriver, hdevices]

theorem ModulesInv.busInit (hi : ModulesInv s) (hoff : s.bus = false)
    (busRegister devRegister : Bool) :
    ModulesInv (moduleRun s (.loadBus busRegister devRegister)) := by
  obtain ⟨hdevices, hdriver, hb, hlog⟩ := hi.empty hoff
  cases busRegister with
  | false => exact hi
  | true =>
    cases devRegister with
    | false =>
      refine ⟨hi.nodup, hi.one, hi.own, hi.onBus, hi.sciIf, .inl hb, hi.fresh, ?_, hi.calls⟩
      show replay ∅ (s.log ++ [.acquire .busType] ++ [.release .busType]) =
        some (s.registered ∪ s.ibHeld)
      rw [replay_then (replay_then hlog (replay_acquire (by simp))) (replay_release (by simp)),
        ← hi.log, hlog]
      rfl
    | true =>
      have hrun : moduleRun s (.loadBus true true) =
          { (s.add [.acquire .busType]).add [.acquire .busDev] with bus := true } := rfl
      rw [hrun]
      refine ⟨hi.nodup, hi.one, hi.own, fun hon => (by cases hon), hi.sciIf, .inl hb, hi.fresh, ?_,
        hi.calls⟩
      rw [ibHeld_nil (by exact hb)]
      simp only [Modules.registered, Modules.add, hdriver, hdevices]
      rw [replay_then (replay_then hlog (replay_acquire (by simp))) (replay_acquire (by simp))]
      decide

theorem ModulesInv.busExit (hi : ModulesInv s) (hon : s.bus = true) (hdriver : s.driver = false)
    (hdevices : s.devices = []) : ModulesInv { disBusExit s with bus := false } := by
  have hb : s.bound = [] := by
    rcases hi.bound with hb | ⟨_, ho, _⟩
    · exact hb
    · simp [hdevices] at ho
  have hlog := hi.log
  have hheld : s.registered ∪ s.ibHeld = {.busType, .busDev} := by
    simp [Modules.registered, ibHeld_nil hb, hon, hdriver, hdevices]
  rw [hheld] at hlog
  refine ⟨hi.nodup, hi.one, hi.own, fun _ => ⟨hdevices, hdriver⟩, hi.sciIf, .inl hb, hi.fresh, ?_,
    hi.calls⟩
  rw [ibHeld_nil (by exact hb)]
  simp only [Modules.registered, disBusExit, Modules.add, hdriver, hdevices]
  have hnone :
      replay {.busType, .busDev} [.release .busDev, .release DriverRes.busType] = some ∅ := by
    decide
  rw [replay_then hlog hnone]
  rfl

theorem ModulesInv.step (hi : ModulesInv s) {a : ModuleAct} (hok : OneMatch s a)
    (h : moduleStep s a = some t) : ModulesInv t := by
  obtain ⟨had, ht⟩ := Option.ite_none_right_eq_some.mp h
  cases Option.some.inj ht
  cases a with
  | loadSciIf init reconf =>
    have hoff : s.sciIf = false := by simpa [ModuleAct.admitted] using had
    have hcalls : s.inits = s.destroys + s.reconfFails + s.destroyFails := by
      simpa [hoff] using hi.calls
    cases init with
    | false => exact hi
    | true =>
      cases reconf with
      | false =>
        refine ⟨hi.nodup, hi.one, hi.own, hi.onBus, hi.sciIf, hi.bound, hi.fresh, hi.log, ?_⟩
        show s.inits + 1 = s.destroys + (s.reconfFails + 1) + s.destroyFails + if s.sciIf then 1 else 0
        rw [hoff]
        simp only [Bool.false_eq_true, if_false]
        omega
      | true =>
        refine ⟨hi.nodup, hi.one, hi.own, hi.onBus, fun _ => rfl, hi.bound, hi.fresh, hi.log, ?_⟩
        simp only [moduleRun, disSciIfInit, Bool.true_eq_false, if_false, if_true]
        omega
  | unloadSciIf destroy =>
    simp only [ModuleAct.admitted, Bool.and_eq_true, Bool.not_eq_true'] at had
    obtain ⟨hon, hdriver⟩ := had
    have hcalls : s.inits = s.destroys + s.reconfFails + s.destroyFails + 1 := by
      simpa [hon] using hi.calls
    have hno : s.driver = true → false = true := by simp [hdriver]
    cases destroy with
    | true =>
      refine ⟨hi.nodup, hi.one, hi.own, hi.onBus, hno, hi.bound, hi.fresh, hi.log, ?_⟩
      simp only [moduleRun, disSciIfExit, Bool.false_eq_true, if_false, if_true]
      omega
    | false =>
      refine ⟨hi.nodup, hi.one, hi.own, hi.onBus, hno, hi.bound, hi.fresh, hi.log, ?_⟩
      simp only [moduleRun, disSciIfExit, Bool.false_eq_true, if_false]
      omega
  | loadBus busRegister devRegister =>
    exact hi.busInit (by simpa [ModuleAct.admitted] using had) busRegister devRegister
  | unloadBus =>
    simp only [ModuleAct.admitted, Bool.and_eq_true, Bool.not_eq_true', List.isEmpty_iff] at had
    exact hi.busExit had.1.1 had.1.2 had.2
  | loadDriver driverRegister env =>
    simp only [ModuleAct.admitted, Bool.and_eq_true, Bool.not_eq_true'] at had
    exact hi.driverInit had.1.1 had.1.2 had.2 driverRegister env
  | unloadDriver => exact hi.driverExit had
  | loadDevice granted env =>
    simp only [ModuleAct.admitted, Bool.and_eq_true, Bool.not_eq_true'] at had
    have hr : ModulesInv (deviceRegister disRopcieName granted env s).2 :=
      hi.register had.2 (fun _ => hok) granted env
    simp only [moduleRun, disDeviceInit]
    rcases deviceRegister_cases disRopcieName granted env s with he | ⟨u, he, hin⟩
    · rw [he]
      exact hi
    · rw [he] at hr ⊢
      exact ⟨hr.nodup, hr.one, fun _ => hin, hr.onBus, hr.sciIf, hr.bound, hr.fresh, hr.log,
        hr.calls⟩
  | unloadDevice =>
    exact hi.unregister (hi.own had) (by simp)
  | addOther name granted env => exact hi.register had hok granted env
  | removeOther name =>
    simp only [ModuleAct.admitted, Bool.and_eq_true, decide_eq_true_eq, Bool.not_eq_true',
      Bool.and_eq_false_iff, decide_eq_false_iff_not] at had
    have hdevice : (deviceUnregister name s).device = s.device := (removeDevice_frame name s).2.2.2
    show ModulesInv { deviceUnregister name s with device := (deviceUnregister name s).device }
    refine hi.unregister had.1 fun hd => ?_
    rw [hdevice] at hd
    exact ⟨hd, by simpa [hd, eq_comm] using had.2⟩

end

/-- In every run of loads and unloads, in each order that the kernel admits and whatever it refuses,
with at most one device at a time that the driver takes: whatever a module unregisters or frees is
registered or allocated then, also through `disdev`, nothing stays registered after an init function
that fails, and without the bus nothing is left at all. -/
theorem reach_modules (s : Modules) (h : Reach ModulesInit (Acts moduleStep OneMatch) s) :
    ModulesInv s ∧
      (s.bus = false → ∀ r, s.log.count (.acquire r) = s.log.count (.release r)) := by
  have hi : ModulesInv s := by
    apply h.invariant
    · rintro s rfl
      exact ⟨.nil, Nat.zero_le _, by simp, by simp, by simp, .inl rfl, Nat.one_pos, rfl, rfl⟩
    · rintro s t _ hi ⟨a, hok, hs⟩
      exact hi.step hok hs
  exact ⟨hi, fun hoff => replay_closed (hi.empty hoff).2.2.2⟩

def freshModules : Modules := ⟨false, false, false, false, [], [], 0, 1, [], 0, 0, 0, 0⟩

def grantingProbe : ProbeEnv := ⟨true, true⟩

/-- `OneMatch`, as a test of the state before the step. -/
def oneMatch (s : Modules) : ModuleAct → Bool
  | .loadDevice .. => s.devices.all fun name => !busMatch name disRopcieName
  | .addOther name .. => !busMatch name disRopcieName ||
      s.devices.all fun other => !busMatch other disRopcieName
  | _ => true

theorem freshModules_init : ModulesInit freshModules := rfl

theorem oneMatch_sound (s : Modules) (a : ModuleAct) (h : oneMatch s a = true) : OneMatch s a := by
  cases a with
  | loadDevice granted env => simpa [oneMatch, OneMatch] using h
  | addOther name granted env =>
    intro hm
    simpa [oneMatch, hm] using h
  | _ => trivial

/-- The device comes before the driver; the first registration with the RDMA core is refused, the
second one is not, and the driver goes before the device. -/
def reloadActs : List ModuleAct :=
  [.loadSciIf true true, .loadBus true true, .loadDevice true grantingProbe,
    .loadDriver true fun _ => ⟨true, false⟩, .unloadDriver, .loadDriver true fun _ => grantingProbe]

def reloaded : Modules := afterChecked moduleStep oneMatch freshModules reloadActs

def unloaded : Modules := afterChecked moduleStep oneMatch freshModules
  (reloadActs ++ [.unloadDriver, .unloadDevice, .unloadBus, .unloadSciIf true])

theorem reach_modules_unloaded :
    reloaded.bound = [disRopcieName] ∧ reloaded.disdev = 2 ∧ unloaded.log.length = 16 ∧
      ModulesInv unloaded ∧
      (unloaded.bus = false →
        ∀ r, unloaded.log.count (.acquire r) = unloaded.log.count (.release r)) :=
  ⟨by decide, by decide, by decide, reach_modules unloaded
    (reach_afterChecked oneMatch_sound (reach_start freshModules_init) _)⟩

/-- With two devices that the driver takes, the second removal takes `disdev` for a device that was
freed. -/
example : replay ∅ (afterActs moduleStep freshModules
    (reloadActs ++ [.addOther (disRopcieName ++ ['2']) true grantingProbe, .unloadDriver])).log =
      none := by decide

end DisKverbs
