import DisKverbs.Cleanup
import DisKverbs.MrLifetime

namespace DisKverbs

open Cleanup

/-- What a verb returns: NULL, an error pointer `ERR_PTR(-e)`, or an object. -/
inductive KPtr
  | null
  | errPtr (e : Nat)
  | obj (p : Nat)
  deriving DecidableEq

/-- `IS_ERR`, the test by which callers tell a failure. -/
def KPtr.isErr : KPtr → Bool
  | .errPtr _ => true
  | _ => false

def einval : Nat := 22

inductive RegLabel
  | pageAddressErr
  | pageIovAllocErr
  | pageCountErr
  | ibUmemGetErr
  | mrAllocErr
  | noMrLeftErr
  deriving DecidableEq

/-- The end of `dis_reg_user_mr`, from its first label on. -/
def regLabels (p : Nat) : List (RegLabel × List Resource) :=
  [(.pageAddressErr, [.pages p]),
   (.pageIovAllocErr, []),
   (.pageCountErr, [.umem p]),
   (.ibUmemGetErr, [.mr p]),
   (.mrAllocErr, []),
   (.noMrLeftErr, [])]

/-- `for_each_sg_page`, with `page` at entry `j` of the list. -/
def storePages : List UInt64 → Nat → (Nat → Iovec) → Body Resource RegLabel (Nat → Iovec)
  | [], _, pages => pure pages
  | a :: as, j, pages => do
    let pages := Function.update pages j { pages j with iovBase := a }
    gotoIf ((pages j).iovBase = 0) .pageAddressErr
    storePages as (j + 1) (Function.update pages j { pages j with iovLen := pageSize })

/-- The page list as `kzalloc` gives it, and the memory behind it. -/
def zeroPages (u : IbUmem) (beyond : Nat → Iovec) (j : Nat) : Iovec :=
  if j < u.pageCount.toNat then ⟨0, 0⟩ else beyond j

def regUserMrBody (env : RegEnv) (start length va : UInt64) (pd : DisPd) (p : Nat) :
    Body Resource RegLabel DisMr := do
  gotoIf (disMrMax ≤ pd.mrC) .noMrLeftErr
  gotoIf (env.mrAlloc = false) .mrAllocErr
  acquire (.mr p)
  match env.ibUmemGet start length with
  | none => goto .ibUmemGetErr
  | some u =>
    acquire (.umem p)
    gotoIf (u.pageCount = 0) .pageCountErr
    gotoIf (env.pagesAlloc = false) .pageIovAllocErr
    acquire (.pages p)
    let pages ← storePages u.pageAddress 0 (zeroPages u env.beyond)
    pure {
      lkey := UInt32.ofNat pd.mrC
      pages := pages
      mrVa := va
      mrVaOffset := u.offset
      mrLength := length
      pageCount := u.pageCount
      isDma := false }

/-- A structure that is acquired takes the next number. -/
def Kernel.perform (k : Kernel) : Event Resource → Kernel
  | .acquire (.mr p) => { k with fresh := p + 1 }.acquire (.mr p)
  | .acquire r => k.acquire r
  | .release r => k.release r

/-- `dis_reg_user_mr` with its labels and its loop written out. -/
def regUserMr (env : RegEnv) (start length va : UInt64) (pd : DisPd) (k : Kernel) :
    KPtr × DisPd × Kernel :=
  match exec (regLabels k.fresh) (regUserMrBody env start length va pd k.fresh) with
  | (some mr, es) => (.obj k.fresh, pd.addMr k.fresh, (es.foldl Kernel.perform k).setMr k.fresh mr)
  | (none, es) => (.errPtr einval, pd, es.foldl Kernel.perform k)

/-- The points at which `dis_reg_user_mr` can fail. -/
inductive RegFault (env : RegEnv) (start length : UInt64) (pd : DisPd) : Prop
  | noMrLeft : disMrMax ≤ pd.mrC → RegFault env start length pd
  | mrAlloc : env.mrAlloc = false → RegFault env start length pd
  | ibUmemGet : env.ibUmemGet start length = none → RegFault env start length pd
  | pageCount (u : IbUmem) : env.ibUmemGet start length = some u → u.pageCount = 0 →
      RegFault env start length pd
  | pagesAlloc : env.pagesAlloc = false → RegFault env start length pd
  | pageAddress (u : IbUmem) (j : Nat) : env.ibUmemGet start length = some u →
      u.pageAddress[j]? = some 0 → RegFault env start length pd

def kernelEvent : Event Resource → KernelEvent
  | .acquire r => .acquire r
  | .release r => .release r

/-- A registration that fails leaves the PD alone and gives back all it took; one that does not
keeps what it took and adds one entry to the table, under the key it returns. -/
structure RegHandled (fault : Prop) (pd : DisPd) (k : Kernel) (r : KPtr × DisPd × Kernel) :
    Prop where
  failed : fault → r.1.isErr = true ∧ r.2.1 = pd ∧
    ∃ es, r.2.2.log = k.log ++ es.map kernelEvent ∧ ReleasedOnce es
  succeeded : ¬ fault → ∃ p es, r.1 = .obj p ∧ r.2.2.log = k.log ++ es.map kernelEvent ∧
    OnlyAcquired [.mr p, .umem p, .pages p] es ∧ (r.2.2.mr p).lkey.toNat = pd.mrC ∧
    pd.mrC < disMrMax ∧ r.2.1 = { pd with
      mrList := Function.update pd.mrList (r.2.2.mr p).lkey.toNat (some p)
      mrC := pd.mrC + 1 }

/-- The list after the loop stored `as` from entry `j` on. -/
def storedPages (as : List UInt64) (j : Nat) (pages : Nat → Iovec) (i : Nat) : Iovec :=
  if i < j then pages i
  else
    match as[i - j]? with
    | some a => ⟨a, pageSize⟩
    | none => pages i

theorem storedPages_cons (a : UInt64) (as : List UInt64) (j : Nat) (pages : Nat → Iovec) :
    storedPages as (j + 1) (Function.update pages j ⟨a, pageSize⟩) =
      storedPages (a :: as) j pages := by
  funext i
  rcases Nat.lt_trichotomy i j with hlt | rfl | hgt
  · simp [storedPages, hlt, Nat.lt_succ_of_lt hlt, hlt.ne]
  · simp [storedPages]
  · have hsub : i - j = (i - (j + 1)) + 1 := by omega
    have hge : ¬ i < j + 1 := by omega
    simp [storedPages, hge, Nat.not_lt_of_gt hgt, hsub, hgt.ne']

/-- The loop stops at a page without an address, and else stores all of them. -/
theorem storePages_eq (as : List UInt64) (j : Nat) (pages : Nat → Iovec) :
    storePages as j pages =
      if 0 ∈ as then goto .pageAddressErr else pure (storedPages as j pages) := by
  induction as generalizing j pages with
  | nil =>
    have hnone : storedPages [] j pages = pages := by
      funext i
      simp [storedPages]
    rw [if_neg (by simp), hnone]
    rfl
  | cons a as ih =>
    simp only [storePages, Function.update_self, Function.update_idem]
    by_cases ha : a = 0
    · subst ha
      rw [if_pos (by simp)]
      rfl
    · have hmem : (0 ∈ a :: as) ↔ 0 ∈ as := by simp [Ne.symm ha]
      have hgo : gotoIf (a = 0) RegLabel.pageAddressErr = (pure () : Body Resource RegLabel Unit) :=
        if_neg ha
      rw [hgo, if_congr hmem rfl rfl, ← storedPages_cons, ← ih]
      rfl

theorem storedPages_list (u : IbUmem) (beyond : Nat → Iovec) :
    storedPages u.pageAddress 0 (zeroPages u beyond) = pageList u beyond := by
  funext i
  cases h : u.pageAddress[i]? with
  | none => simp [storedPages, pageList, zeroPages, h]
  | some a => simp [storedPages, pageList, h]

theorem perform_log (es : List (Event Resource)) (k : Kernel) :
    (es.foldl Kernel.perform k).log = k.log ++ es.map kernelEvent := by
  induction es generalizing k with
  | nil => simp
  | cons e es ih =>
    have hone : (k.perform e).log = k.log ++ [kernelEvent e] := by
      rcases e with (_ | _ | _) | _ <;> rfl
    rw [List.foldl_cons, ih, hone, List.map_cons, List.append_assoc]
    rfl

/-- The function with its labels does what the one without them does. -/
theorem regUserMr_eq (env : RegEnv) (start length va : UInt64) (pd : DisPd) (k : Kernel) :
    regUserMr env start length va pd k =
      ((disRegUserMr env start length va pd k).1.elim (.errPtr einval) .obj,
        (disRegUserMr env start length va pd k).2) := by
  unfold disRegUserMr
  split
  next hfull => simp [regUserMr, regUserMrBody, hfull, regLabels, fallThrough]
  next hfree =>
    cases hm : env.mrAlloc with
    | false => simp [regUserMr, regUserMrBody, hfree, hm, regLabels, fallThrough]
    | true =>
      cases hu : env.ibUmemGet start length with
      | none =>
        simp [regUserMr, regUserMrBody, hfree, hm, hu, regLabels, fallThrough, Kernel.perform]
      | some u =>
        by_cases hc : u.pageCount = 0
        · simp [regUserMr, regUserMrBody, hfree, hm, hu, hc, regLabels, fallThrough,
            Kernel.perform]
        · cases hp : env.pagesAlloc with
          | false =>
            simp [regUserMr, regUserMrBody, hfree, hm, hu, hc, hp, regLabels, fallThrough,
              Kernel.perform]
          | true =>
            by_cases ha : 0 ∈ u.pageAddress
            · simp [regUserMr, regUserMrBody, hfree, hm, hu, hc, hp, storePages_eq, ha, regLabels,
                fallThrough, Kernel.perform]
            · simp [regUserMr, regUserMrBody, hfree, hm, hu, hc, hp, storePages_eq, ha,
                storedPages_list, Kernel.perform]

/-- At every jump the labels release what is held, and only that. -/
theorem regUserMrBody_undoes (env : RegEnv) (start length va : UInt64) (pd : DisPd) (p : Nat) :
    (regUserMrBody env start length va pd p).Undoes (regLabels p)
      (fun mr held => held = [.pages p, .umem p, .mr p] ∧ mr.lkey = UInt32.ofNat pd.mrC ∧
        pd.mrC < disMrMax ∧ ¬ RegFault env start length pd)
      (fun _ => RegFault env start length pd) [] := by
  refine undoes_gotoIf (fun hfull => ⟨rfl, .noMrLeft hfull⟩) fun hfree => ?_
  refine undoes_gotoIf (fun hm => ⟨rfl, .mrAlloc hm⟩) fun hm => ?_
  refine undoes_acquire (by simp) ?_
  cases hu : env.ibUmemGet start length with
  | none => exact ⟨rfl, .ibUmemGet hu⟩
  | some u =>
    refine undoes_acquire (by simp) ?_
    refine undoes_gotoIf (fun hc => ⟨rfl, .pageCount u hu hc⟩) fun hc => ?_
    refine undoes_gotoIf (fun hp => ⟨rfl, .pagesAlloc hp⟩) fun hp => ?_
    refine undoes_acquire (by simp) ?_
    rw [storePages_eq]
    split
    next ha =>
      obtain ⟨j, hj⟩ := List.mem_iff_getElem?.mp ha
      exact ⟨rfl, .pageAddress u j hu hj⟩
    next ha =>
      refine ⟨rfl, rfl, Nat.lt_of_not_le hfree, fun hfault => ?_⟩
      cases hfault with
      | noMrLeft h => exact hfree h
      | mrAlloc h => exact hm h
      | ibUmemGet h => simp [hu] at h
      | pageCount u' h hz =>
        cases Option.some.inj (hu.symm.trans h)
        exact hc hz
      | pagesAlloc h => exact hp h
      | pageAddress u' j h hj =>
        cases Option.some.inj (hu.symm.trans h)
        exact ha (List.mem_of_getElem? hj)

/-- At whichever point a registration fails, it undoes all it did; if it does not fail, it adds
one entry to the table. -/
theorem regUserMr_handled (env : RegEnv) (start length va : UInt64) (pd : DisPd) (k : Kernel) :
    RegHandled (RegFault env start length pd) pd k (regUserMr env start length va pd k) := by
  have hbody := undoes_cleans (regUserMrBody_undoes env start length va pd k.fresh)
  unfold regUserMr
  cases he : exec (regLabels k.fresh) (regUserMrBody env start length va pd k.fresh) with
  | mk o es =>
  rw [he] at hbody
  rcases hbody with ⟨mr, rs, ⟨hrs, hkey, hmax, hok⟩, rfl, hes⟩ | ⟨⟨_, hfault⟩, rfl, hes⟩
  · have hlt : pd.mrC < 2 ^ 32 := lt_trans hmax (by decide)
    have hlkey : mr.lkey.toNat = pd.mrC := by
      rw [hkey]
      exact UInt32.toNat_ofNat_of_lt' hlt
    refine ⟨fun hfault => absurd hfault hok, fun _ => ⟨k.fresh, es, rfl, ?_, ?_, ?_, hmax, ?_⟩⟩
    · exact perform_log es k
    · rw [List.reverse_eq_iff.mp hrs] at hes
      exact hes
    · simpa [Kernel.setMr] using hlkey
    · simp [Kernel.setMr, hlkey, DisPd.addMr]
  · refine ⟨fun _ => ⟨rfl, rfl, es, perform_log es k, hes⟩, fun hok => absurd hfault hok⟩

end DisKverbs
