import DisKverbs.CqSpec

namespace DisKverbs

open CellProg CircBuf StepSystem

variable {ι : Type} [DecidableEq ι] {r : RingSize} {s t : CqState ι} {me : ι}

inductive CallView
  | quiet
  | running (call : CqeCall)
  | returned (ret : Int)

def HolderPc.view (call : CqeCall) : HolderPc → CallView
  | .unlock ret => .returned ret
  | _ => .running call

def CqState.waitView (s : CqState ι) (me : ι) : CallView :=
  match s.waiting me with
  | some call => .running call
  | none => .quiet

def CqState.view (s : CqState ι) (me : ι) : CallView :=
  match s.holder with
  | some (i, call, pc) => if i = me then pc.view call else s.waitView me
  | none => s.waitView me

def CqState.mine (s : CqState ι) (me : ι) : List (Inserted ι) :=
  s.inserted.filter fun e => e.producer = me

def LockFree (s : CqState ι) : Prop :=
  ∀ i call pc, s.holder = some (i, call, pc) → s.waiting i = none

theorem LockFree.move (hf : LockFree s) {a : CqAct ι} (h : CqMove r s a t) : LockFree t := by
  cases h with
  | @wait i call hw hne =>
    intro j call' pc hh
    have hji : j ≠ i := by rintro rfl; exact hne call' pc hh
    exact (Function.update_of_ne hji _ _).trans (hf j call' pc hh)
  | @lock i call hh hw =>
    intro j call' pc he
    cases he
    exact Function.update_self _ _ _
  | loadHead hh => intro j call' pc he; cases he; exact hf _ _ _ hh
  | full hh _ => intro j call' pc he; cases he; exact hf _ _ _ hh
  | reserve hh _ => intro j call' pc he; cases he; exact hf _ _ _ hh
  | load hh => intro j call' pc he; cases he; exact hf _ _ _ hh
  | store hh => intro j call' pc he; cases he; exact hf _ _ _ hh
  | ask hh => intro j call' pc he; cases he; exact hf _ _ _ hh
  | insert hh => intro j call' pc he; cases he; exact hf _ _ _ hh
  | unlock hh => intro j call' pc he; cases he
  | _ => exact hf

/-- What a step of a completion queue means to one of its producers. -/
inductive ViewMove (r : RingSize) (me : ι) (s : CqState ι) : CqAct ι → CqState ι → Prop
  | other {a t} : t.view me = s.view me → t.mine me = s.mine me → ViewMove r me s a t
  | call {call t} : s.view me = .quiet → t.view me = .running call → t.mine me = s.mine me →
      ViewMove r me s (.call me call) t
  | full {call head t} : s.holder = some (me, call, .gotHead head) →
      circSpace head s.tail r.size < 1 → t.view me = .returned (-42) → t.mine me = s.mine me →
      ViewMove r me s (.producer me) t
  | insert {call cqe t} : s.view me = .running call → t.view me = .returned 0 →
      t.mine me = s.mine me ++ [⟨me, call, cqe⟩] → ViewMove r me s (.producer me) t
  | unlock {ret t} : s.view me = .returned ret → t.view me = .quiet → t.mine me = s.mine me →
      ViewMove r me s (.producer me) t

theorem view_holder {call : CqeCall} {pc : HolderPc} (h : s.holder = some (me, call, pc)) :
    s.view me = pc.view call := by simp [CqState.view, h]

theorem view_other {i : ι} {call : CqeCall} {pc : HolderPc} (h : s.holder = some (i, call, pc))
    (hne : i ≠ me) : s.view me = s.waitView me := by simp [CqState.view, h, hne]

/-- A step of the lock holder between its entry and its exit. -/
theorem view_running {i : ι} {call : CqeCall} {pc pc' : HolderPc} {a : CqAct ι}
    (hs : s.holder = some (i, call, pc)) (ht : t.holder = some (i, call, pc'))
    (hw : t.waiting = s.waiting) (hi : t.inserted = s.inserted)
    (hpc : pc'.view call = pc.view call) : ViewMove r me s a t := by
  have hmine : t.mine me = s.mine me := by rw [CqState.mine, hi]; rfl
  refine .other ?_ hmine
  by_cases he : i = me
  · subst he
    rw [view_holder hs, view_holder ht, hpc]
  · rw [view_other hs he, view_other ht he, CqState.waitView, hw]
    rfl

theorem CqMove.call_view {call : CqeCall} (h : CqMove r s (.call me call) t) :
    s.view me = .quiet ∧ t.view me = .running call ∧ t.mine me = s.mine me := by
  cases h with
  | wait hw hne =>
    have hview : ∀ u : CqState ι, u.holder = s.holder → u.view me = u.waitView me := by
      intro u hu
      cases hh : s.holder with
      | none => simp [CqState.view, hu, hh]
      | some p =>
        obtain ⟨j, call', pc⟩ := p
        have hj : j ≠ me := by rintro rfl; exact hne call' pc hh
        exact view_other (hu.trans hh) hj
    have hnew := hview { s with waiting := Function.update s.waiting me (some call) } rfl
    refine ⟨?_, ?_, rfl⟩
    · rw [hview s rfl, CqState.waitView, hw]
    · rw [hnew]
      simp only [CqState.waitView, Function.update_self]

theorem CqMove.view {a : CqAct ι} (hf : LockFree s) (h : CqMove r s a t) :
    ViewMove r me s a t := by
  cases h with
  | @wait i call hw hne =>
    by_cases he : i = me
    · subst he
      have hm : CqMove r s (.call i call) _ := .wait hw hne
      obtain ⟨hs, ht, hm⟩ := hm.call_view
      exact .call hs ht hm
    · have hwait : Function.update s.waiting i (some call) me = s.waiting me :=
        Function.update_of_ne (Ne.symm he) _ _
      refine .other ?_ rfl
      simp only [CqState.view, CqState.waitView, hwait]
  | @lock i call hh hw =>
    refine .other ?_ rfl
    by_cases he : i = me
    · subst he
      simp [CqState.view, CqState.waitView, hh, hw, HolderPc.view]
    · have hwait : Function.update s.waiting i none me = s.waiting me :=
        Function.update_of_ne (Ne.symm he) _ _
      simp [CqState.view, CqState.waitView, hh, he, hwait]
  | loadHead hh => exact view_running hh rfl rfl rfl rfl
  | @full i call head hh hs =>
    by_cases he : i = me
    · subst he
      exact .full hh hs (by simp [CqState.view, HolderPc.view]) rfl
    · refine .other ?_ rfl
      rw [view_other hh he]
      simp [CqState.view, CqState.waitView, he]
  | reserve hh _ => exact view_running hh rfl rfl rfl rfl
  | load hh => exact view_running hh rfl rfl rfl rfl
  | store hh => exact view_running hh rfl rfl rfl rfl
  | ask hh => exact view_running hh rfl rfl rfl rfl
  | @insert i call head hh =>
    by_cases he : i = me
    · subst he
      have hrun : s.view i = .running call := view_holder hh
      let new : Inserted ι := ⟨i, call, s.slots head⟩
      have hmine : (s.inserted ++ [new]).filter (fun e => e.producer = i) = s.mine i ++ [new] := by
        simp [CqState.mine, new]
      exact .insert hrun (by simp [CqState.view, HolderPc.view]) hmine
    · refine .other ?_ ?_
      · rw [view_other hh he]
        simp [CqState.view, CqState.waitView, he]
      · simp [CqState.mine, he]
  | @unlock i call ret hh =>
    by_cases he : i = me
    · subst he
      have hret : s.view i = .returned ret := view_holder hh
      exact .unlock hret (by simp [CqState.view, CqState.waitView, hf i call _ hh]) rfl
    · refine .other ?_ rfl
      rw [view_other hh he]
      rfl
  | _ => exact .other rfl rfl

theorem reach_lockFree {ok : CqState ι → CqAct ι → Prop}
    (h : Reach CqInit (Acts (cqStep r) ok) s) : LockFree s := by
  apply h.invariant
  · rintro s rfl
    intro i call pc hh
    cases hh
  · rintro s t _ hf ⟨a, _, hs⟩
    exact hf.move (cqStep_move hs)

end DisKverbs
