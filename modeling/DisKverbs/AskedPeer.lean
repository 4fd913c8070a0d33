import DisKverbs.QpNumbers

namespace DisKverbs

open StepSystem

section

variable {p : SciIf} {s t : QpLife} {n peer : UInt32}

theorem destroyStep_call {type : DisWqType} {pc : QpExitPc} (h : destroyStep s type pc = some t) :
    (∀ attr attrMask pc', t.call ≠ .modify attr attrMask pc') ∧ t.lQpn = s.lQpn ∧
      t.rQpn = s.rQpn ∧ t.named = s.named ∧ t.qpns = s.qpns ∧
      ∀ type i, ((t.wq type).tasks i).pc ≠ .absent → ((s.wq type).tasks i).pc ≠ .absent := by
  unfold destroyStep at h
  split at h
  next => cases Option.some.inj h; exact ⟨by simp, rfl, rfl, rfl, rfl, fun _ _ ha => ha⟩
  next => cases Option.some.inj h; exact ⟨by simp, rfl, rfl, rfl, rfl, fun _ _ ha => ha⟩
  next =>
    obtain ⟨r, hq, rfl⟩ := Option.map_eq_some_iff.mp h
    obtain ⟨hqpn, htasks⟩ := qpExitStep_qpn hq
    refine ⟨by simp, rfl, rfl, rfl, setWq_qpns hqpn, ?_⟩
    exact setWq_forall (P := fun type' q => ∀ i, (q.tasks i).pc ≠ .absent →
      ((s.wq type').tasks i).pc ≠ .absent) htasks fun _ _ _ ha => ha

theorem RtrInv.step (hi : RtrInv n s) {a : QpAct} (hok : AsksFor peer s a)
    (h : qpStep p s a = some t) : RtrInv n t := by
  cases qpStep_access h with
  | modify =>
    refine hi.quiet rfl rfl (fun _ _ ha => ha) fun attr' attrMask' pc he => ?_
    cases he
    exact fun hst hrtr => (hok hst hrtr).1
  | destroy => exact hi.quiet rfl rfl (fun _ _ ha => ha) (by simp)
  | inModify hc hm => exact hi.modify hc hm
  | inDestroy _ hd =>
    obtain ⟨hne, hl, _, _, hq, ht⟩ := destroyStep_call hd
    exact hi.quiet hl hq ht fun attr attrMask pc he => absurd he (hne attr attrMask pc)
  | @task type i env q hq =>
    have hm := taskStep_move hq
    obtain ⟨_, _, hqpn, ho⟩ := hm.frame
    refine hi.quiet rfl (setWq_qpns hqpn) ?_ hi.copied
    refine setWq_forall (P := fun type' q => ∀ j, (q.tasks j).pc ≠ .absent →
      ((s.wq type').tasks j).pc ≠ .absent) (fun j ha => ?_) fun _ _ _ ha => ha
    by_cases hj : j = i
    · subst hj
      exact hm.present
    · rwa [ho j hj] at ha

theorem newQp_rtrInv (n : UInt32) : RtrInv n (newQp n) := by
  refine ⟨rfl, fun _ _ _ hc => ?_, fun _ _ ha => absurd rfl ha⟩
  simp [newQp] at hc

theorem reach_rtrInv (h : Reach (QpInit n) (Acts (qpStep p) (AsksFor peer)) s) : RtrInv n s := by
  apply h.invariant
  · rintro s rfl
    exact newQp_rtrInv n
  · rintro s t _ hi ⟨a, hok, hs⟩
    exact hi.step hok hs

theorem RtrInv.numbers (hi : RtrInv n s) (hw : s.HasWorkers) (type : DisWqType) :
    (s.wq type).qpn = ⟨n, n⟩ := by
  obtain ⟨i, ha⟩ := hw type
  exact hi.workers type i ha

/-- Whatever numbers the two sides ask for, each SQ looks for the RQ with its own number. -/
theorem rtr_mirrors_iff (a b : SciIf) (m n : UInt32) (s t : QpLife) (ha : a.isInitiator = true)
    (hb : b.isInitiator = false) (hua : a.useLQpn = false) (hub : b.useLQpn = false)
    (hm : m.toNat < disQpMax) (hn : n.toNat < disQpMax)
    (hs : Reach (QpInit m) (Acts (qpStep a) (AsksFor n)) s)
    (ht : Reach (QpInit n) (Acts (qpStep b) (AsksFor m)) t)
    (hsw : s.HasWorkers) (htw : t.HasWorkers) :
    (Mirrors (connectMsqArgs a (s.wq .sq).qpn) (createMsqArgs b (t.wq .rq).qpn) ↔ m = n) ∧
      (Mirrors (connectMsqArgs b (t.wq .sq).qpn) (createMsqArgs a (s.wq .rq).qpn) ↔ m = n) := by
  have hsn := (reach_rtrInv hs).numbers hsw
  have htn := (reach_rtrInv ht).numbers htw
  have small {k : UInt32} (hk : k.toNat < disQpMax) : (⟨k, k⟩ : WqQpn).Small := by
    simp only [disQpMax] at hk
    exact ⟨by simp only; omega, by simp only; omega⟩
  rw [hsn .sq, hsn .rq, htn .sq, htn .rq,
    mirrors_iff (by simp [ha, hb]) (by simp [hua, hub]) (small hm) (small hn),
    mirrors_iff (by simp [ha, hb]) (by simp [hua, hub]) (small hn) (small hm)]
  simp only [Peers, hua, hub, Bool.false_eq_true, if_false]
  exact ⟨⟨fun h => h.1, fun h => ⟨h, h.symm⟩⟩, ⟨fun h => h.2, fun h => ⟨h.symm, h⟩⟩⟩

end

/-- `AsksFor`, as a test of the action. -/
def asksFor (peer : UInt32) (_ : QpLife) : QpAct → Bool
  | .modify attr attrMask =>
    !(hasAttr attrMask ibQpState && decide (attr.qpState = .rtr)) ||
      (hasAttr attrMask ibQpDestQpn && decide (attr.destQpNum = peer))
  | _ => true

theorem asksFor_sound (peer : UInt32) (s : QpLife) (a : QpAct) (h : asksFor peer s a = true) :
    AsksFor peer s a := by
  cases a with
  | modify attr attrMask =>
    intro hst hrtr
    simpa [asksFor, hst, hrtr] using h
  | _ => trivial

/-- The QP with a number after one move to RTR. -/
def rtrQp (p : SciIf) (lQpn peer : UInt32) : QpLife :=
  afterChecked (qpStep p) (asksFor peer) (newQp lQpn) (rtrActs peer)

theorem rtrQp_reach (p : SciIf) (lQpn peer : UInt32) :
    Reach (QpInit lQpn) (Acts (qpStep p) (AsksFor peer)) (rtrQp p lQpn peer) :=
  reach_afterChecked (asksFor_sound peer) (reach_start (newQp_init lQpn)) (rtrActs peer)

def qpnsOf (s : QpLife) : List WqQpn := [(s.wq .sq).qpn, (s.wq .rq).qpn]

theorem rtr_mirrors_same :
    Mirrors (connectMsqArgs initiatorIf ((rtrQp initiatorIf 100 100).wq .sq).qpn)
        (createMsqArgs responderIf ((rtrQp responderIf 100 100).wq .rq).qpn) ↔
      (100 : UInt32) = 100 := by
  have hwa : (rtrQp initiatorIf 100 100).HasWorkers := by
    intro type
    cases type
    · exact ⟨0, by decide⟩
    · exact ⟨0, by decide⟩
  have hwb : (rtrQp responderIf 100 100).HasWorkers := by
    intro type
    cases type
    · exact ⟨0, by decide⟩
    · exact ⟨0, by decide⟩
  exact (rtr_mirrors_iff initiatorIf responderIf 100 100 _ _ rfl rfl rfl rfl (by decide) (by decide)
    (rtrQp_reach initiatorIf 100 100) (rtrQp_reach responderIf 100 100) hwa hwb).1

/-- QP 100 asks for QP 101 and the other way round: neither finds its peer. -/
theorem rtr_other_peer :
    Reach (QpInit 100) (Acts (qpStep initiatorIf) (AsksFor 101)) (rtrQp initiatorIf 100 101) ∧
      Reach (QpInit 101) (Acts (qpStep responderIf) (AsksFor 100)) (rtrQp responderIf 101 100) ∧
      qpnsOf (rtrQp initiatorIf 100 101) = [⟨100, 100⟩, ⟨100, 100⟩] ∧
      qpnsOf (rtrQp responderIf 101 100) = [⟨101, 101⟩, ⟨101, 101⟩] ∧
      ¬ Mirrors (connectMsqArgs initiatorIf ((rtrQp initiatorIf 100 101).wq .sq).qpn)
        (createMsqArgs responderIf ((rtrQp responderIf 101 100).wq .rq).qpn) := by
  refine ⟨rtrQp_reach initiatorIf 100 101, rtrQp_reach responderIf 101 100, by decide, by decide, ?_⟩
  intro h
  exact absurd h.1 (by decide)

end DisKverbs
