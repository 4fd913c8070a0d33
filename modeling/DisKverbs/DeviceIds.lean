import DisKverbs.Device

namespace DisKverbs

open StepSystem

structure DeviceInv (s : DeviceState) : Prop where
  pds : ∀ d < s.pdC, disQpIni ≤ (s.pds d).qpC ∧ (s.pds d).qpC ≤ disQpMax
  number : ∀ i < s.qpC, s.pdOf i < s.pdC ∧ ∃ k, disQpIni ≤ k ∧ k < (s.pds (s.pdOf i)).qpC ∧
    (s.qps i).lQpn.toNat = k
  apart : ∀ i < s.qpC, ∀ j < s.qpC, i ≠ j → s.pdOf i = s.pdOf j →
    (s.qps i).lQpn ≠ (s.qps j).lQpn
  unused : ∀ i, s.qpC ≤ i → s.qps i = newQp 0
  named : ∀ i, (s.qps i).NamedRight

section

variable {p : SciIf} {s t : DeviceState}

theorem newQp_namedRight (n : UInt32) : (newQp n).NamedRight := fun _ => rfl

/-- A creation counts one number up or fails without effect. -/
theorem disCreateQp_count {allocs : QpAllocs} {qp : Nat} {sw rw : UInt32} {pd pd' : DisPd}
    {ret : Option DisQp} (h : disCreateQp allocs qp sw rw pd = (ret, pd')) :
    (ret = none ∧ pd' = pd) ∨
      (ret.isSome ∧ pd.qpC < disQpMax ∧ pd'.qpC = pd.qpC + 1) := by
  unfold disCreateQp at h
  split at h
  next => exact .inl ⟨(Prod.mk.inj h).1.symm, (Prod.mk.inj h).2.symm⟩
  next hmax =>
    split at h
    next => exact .inl ⟨(Prod.mk.inj h).1.symm, (Prod.mk.inj h).2.symm⟩
    next =>
      split at h
      next => exact .inl ⟨(Prod.mk.inj h).1.symm, (Prod.mk.inj h).2.symm⟩
      next =>
        split at h
        next => exact .inl ⟨(Prod.mk.inj h).1.symm, (Prod.mk.inj h).2.symm⟩
        next =>
          obtain ⟨rfl, rfl⟩ := Prod.mk.inj h
          exact .inr ⟨rfl, by omega, rfl⟩

/-- The steps of a device. -/
inductive DeviceMove (p : SciIf) (s : DeviceState) : DeviceAct → DeviceState → Prop
  | allocPd : DeviceMove p s .allocPd
      { s with pds := Function.update s.pds s.pdC (disAllocPd zeroPd), pdC := s.pdC + 1 }
  | refused {pd allocs maxSendWr maxRecvWr} :
      DeviceMove p s (.createQp pd allocs maxSendWr maxRecvWr) s
  | created {pd pd' allocs maxSendWr maxRecvWr} : pd < s.pdC → (s.pds pd).qpC < disQpMax →
      pd'.qpC = (s.pds pd).qpC + 1 →
      DeviceMove p s (.createQp pd allocs maxSendWr maxRecvWr) (s.addQp pd pd')
  | qp {i a qp} : i < s.qpC → qpStep p (s.qps i) a = some qp →
      DeviceMove p s (.qp i a) { s with qps := Function.update s.qps i qp }

theorem deviceStep_move {a : DeviceAct} (hs : deviceStep p s a = some t) : DeviceMove p s a t := by
  cases a with
  | allocPd => cases Option.some.inj hs; exact .allocPd
  | createQp pd allocs sw rw =>
    simp only [deviceStep] at hs
    split at hs
    next hpd =>
      split at hs
      next qp pd' hc =>
        cases Option.some.inj hs
        rcases disCreateQp_count hc with ⟨hn, _⟩ | ⟨_, hmax, hcount⟩
        · simp at hn
        · exact .created hpd hmax hcount
      next pd' hc =>
        cases Option.some.inj hs
        rcases disCreateQp_count hc with ⟨_, rfl⟩ | ⟨hn, _⟩
        · rw [Function.update_eq_self]
          exact .refused
        · simp at hn
    next => simp at hs
  | qp i a =>
    simp only [deviceStep] at hs
    split at hs
    next hlt =>
      obtain ⟨qp, hq, rfl⟩ := Option.map_eq_some_iff.mp hs
      exact .qp hlt hq
    next => simp at hs

theorem DeviceInv.allocPd (hi : DeviceInv s) :
    DeviceInv { s with pds := Function.update s.pds s.pdC (disAllocPd zeroPd), pdC := s.pdC + 1 } := by
  have old {d : Nat} (hd : d < s.pdC) :
      Function.update s.pds s.pdC (disAllocPd zeroPd) d = s.pds d :=
    Function.update_of_ne (by omega) _ _
  refine ⟨fun d hd => ?_, fun i h => ?_, hi.apart, hi.unused, hi.named⟩
  · by_cases he : d = s.pdC
    · subst he
      simp [disAllocPd, disQpIni, disQpMax]
    · have hlt : d < s.pdC := by
        simp only at hd
        omega
      simp only [old hlt]
      exact hi.pds d hlt
  · obtain ⟨hpd, k, hk⟩ := hi.number i h
    refine ⟨by simp only; omega, k, ?_⟩
    simp only [old hpd]
    exact hk

theorem DeviceInv.createQp (hi : DeviceInv s) {pd : Nat} {pd' : DisPd} (hpd : pd < s.pdC)
    (hmax : (s.pds pd).qpC < disQpMax) (hc : pd'.qpC = (s.pds pd).qpC + 1) :
    DeviceInv (s.addQp pd pd') := by
  have hini := (hi.pds pd hpd).1
  have hval : (UInt32.ofNat (s.pds pd).qpC).toNat = (s.pds pd).qpC := by
    simp only [disQpMax] at hmax
    exact UInt32.toNat_ofNat_of_lt' (lt_trans hmax (by decide))
  have count (d : Nat) : (s.pds d).qpC ≤ (Function.update s.pds pd pd' d).qpC := by
    by_cases he : d = pd
    · subst he
      simp [hc]
    · simp [he]
  have oldQp {i : Nat} (h : i < s.qpC) :
      (s.addQp pd pd').qps i = s.qps i ∧ (s.addQp pd pd').pdOf i = s.pdOf i :=
    ⟨Function.update_of_ne (by omega) _ _, Function.update_of_ne (by omega) _ _⟩
  have newNum : ((s.addQp pd pd').qps s.qpC).lQpn = UInt32.ofNat (s.pds pd).qpC ∧
      (s.addQp pd pd').pdOf s.qpC = pd := by
    simp [DeviceState.addQp, newQp]
  have fresh {i : Nat} (h : i < s.qpC) (hp : s.pdOf i = pd) :
      (s.qps i).lQpn ≠ UInt32.ofNat (s.pds pd).qpC := by
    obtain ⟨_, k, _, hlt, hk⟩ := hi.number i h
    intro he
    rw [he, hval] at hk
    rw [hp] at hlt
    omega
  have bound {i : Nat} (h : i < (s.addQp pd pd').qpC) : i < s.qpC ∨ i = s.qpC := by
    simp only [DeviceState.addQp] at h
    omega
  refine ⟨fun d hd => ?_, fun i h => ?_, fun i h j h' hne he => ?_, fun i h => ?_, fun i => ?_⟩
  · have hle := count d
    have hold := hi.pds d hd
    refine ⟨le_trans hold.1 hle, ?_⟩
    by_cases he : d = pd
    · subst he
      simp only [DeviceState.addQp, Function.update_self, hc]
      omega
    · simpa [DeviceState.addQp, he] using hold.2
  · rcases bound h with h | rfl
    · obtain ⟨hq, hp⟩ := oldQp h
      obtain ⟨hlt, k, hk, hk', hn⟩ := hi.number i h
      rw [hq, hp]
      exact ⟨hlt, k, hk, lt_of_lt_of_le hk' (count _), hn⟩
    · rw [newNum.1, newNum.2]
      refine ⟨hpd, _, hini, ?_, hval⟩
      simp [DeviceState.addQp, hc]
  · rcases bound h with h | rfl
    · rcases bound h' with h' | rfl
      · rw [(oldQp h).1, (oldQp h').1]
        rw [(oldQp h).2, (oldQp h').2] at he
        exact hi.apart i h j h' hne he
      · rw [(oldQp h).1, newNum.1]
        rw [(oldQp h).2, newNum.2] at he
        exact fresh h he
    · rcases bound h' with h' | rfl
      · rw [(oldQp h').1, newNum.1]
        rw [(oldQp h').2, newNum.2] at he
        exact (fresh h' he.symm).symm
      · exact absurd rfl hne
  · simp only [DeviceState.addQp] at h ⊢
    rw [Function.update_of_ne (by omega)]
    exact hi.unused i (by omega)
  · by_cases he : i = s.qpC
    · subst he
      simp only [DeviceState.addQp, Function.update_self]
      exact newQp_namedRight _
    · simp only [DeviceState.addQp, Function.update_of_ne he]
      exact hi.named i

theorem DeviceInv.qp (hi : DeviceInv s) {i : Nat} {a : QpAct} {qp : QpLife} (hlt : i < s.qpC)
    (h : qpStep p (s.qps i) a = some qp) :
    DeviceInv { s with qps := Function.update s.qps i qp } := by
  have hm := qpStep_name h
  have number (j : Nat) : (Function.update s.qps i qp j).lQpn = (s.qps j).lQpn := by
    by_cases he : j = i
    · subst he
      simpa using hm.lQpn
    · simp [he]
  refine ⟨hi.pds, fun j hj => ?_, fun j hj k hk hne he => ?_, fun j hj => ?_, fun j => ?_⟩
  · simp only [number]
    exact hi.number j hj
  · simp only [number]
    exact hi.apart j hj k hk hne he
  · simp only at hj ⊢
    rw [Function.update_of_ne (by omega)]
    exact hi.unused j hj
  · by_cases he : j = i
    · subst he
      simpa using (hi.named j).move hm
    · simpa [he] using hi.named j

theorem reach_deviceInv {ok : DeviceState → DeviceAct → Prop}
    (h : Reach DeviceInit (Acts (deviceStep p) ok) s) : DeviceInv s := by
  apply h.invariant
  · rintro s rfl
    refine ⟨?_, ?_, ?_, fun _ _ => rfl, fun _ => newQp_namedRight 0⟩
    · intro d hd
      simp [freshDevice] at hd
    · intro i hlt
      simp [freshDevice] at hlt
    · intro i hlt
      simp [freshDevice] at hlt
  · rintro s t _ hi ⟨a, _, hs⟩
    cases deviceStep_move hs with
    | allocPd => exact hi.allocPd
    | refused => exact hi
    | created hpd hmax hcount => exact hi.createQp hpd hmax hcount
    | qp hlt hq => exact hi.qp hlt hq

end

end DisKverbs
