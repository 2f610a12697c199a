/-
  The workers that sleep for a lock.

  A worker goes to sleep when the file of its request is held by another
  client.  `unlock_file_controller` wakes all sleeping workers up, the removal
  of a file and its closing do not: the sleeping workers are left alone only in
  runs in which no file for which a worker sleeps is removed or closed.
-/
import FileStorage.Locking

namespace FileStorage

open Threads Prog

variable {cfg : Config} {s s' : Server} {q : Queue FileNode} {r : Request} {W : Type} [DecidableEq W]
  {ok : Conf workerSig Server Request W → W → Ev workerSig Request → Prop}
  {c c' : Conf workerSig Server Request W} {w : W} {ev : Ev workerSig Request}

/-- The file of the request is open and held by another client. -/
def Blocked (q : Queue FileNode) (r : Request) : Prop :=
  ∃ f, getFileNode q r.filepath = some f ∧ f.isOpen ∧ f.clientId ≠ r.clientId ∧ f.clientId ≠ 0

/-- When all workers are idle or asleep, each sleeping worker waits for a file
    that is in the store, open, and held by another client. -/
def NoLostWaiter (c : Conf workerSig Server Request W) : Prop :=
  (∀ w, (c.thr w).atRest) →
    ∀ w r cd m p, c.thr w = .asleep r cd m p → Blocked c.st.fileQueue r

/-- The call does not remove or close the file of the request `r`. -/
def Spares (q : Queue FileNode) (r : Request) : Call → Prop
  | .deleteVirtualFile p d | .closeVirtualFile p d =>
    ∀ f, getFileNode q p = some f → r.filepath = p → f.clientId ≠ d
  | .removeNode a => ∀ f, getFileNode q r.filepath = some f → f.addr ≠ a
  | _ => True

/-- Steps that do not remove or close a file for which a worker sleeps or is
    about to sleep. -/
def SparesWaited (c : Conf workerSig Server Request W) (_ : W) : Ev workerSig Request → Prop
  | .did (.call x) _ => ∀ v r, (c.thr v).waiting = some r → Spares c.st.fileQueue r x
  | _ => True

/-- The step does not remove or close any file. -/
def sparesAll : Ev workerSig Request → Bool
  | .did (.call (.deleteVirtualFile _ _)) _ | .did (.call (.closeVirtualFile _ _)) _
  | .did (.call (.removeNode _)) _ => false
  | _ => true

omit [DecidableEq W] in
theorem sparesAll_spares (h : sparesAll ev = true) : SparesWaited c w ev := by
  cases ev with
  | did a x =>
    cases a with
    | call y =>
      intro v r _
      cases y with
      | deleteVirtualFile | closeVirtualFile | removeNode => cases h
      | _ => trivial
    | _ => trivial
  | _ => trivial

theorem asleep_of_waiting {t : Thread workerSig Request} (h : t.atRest) (hw : t.waiting = some r) :
    ∃ cd m p, t = .asleep r cd m p := by
  cases t with
  | asleep r' cd m p => cases hw; exact ⟨cd, m, p, rfl⟩
  | idle => cases hw
  | _ => cases h

/-- The worker wakes all sleeping workers up in its next steps. -/
def WillBroadcast (t : Thread workerSig Request) : Prop :=
  ∃ r k, t = .run r (.lock .fileLockMutex (.broadcast .fileLockCond k)) ∨
    t = .run r (.broadcast .fileLockCond k)

/-! ## Calls on the store -/

/-- A call that spares the file of a request leaves it to its holder. -/
theorem Blocked.call (hs : s.WF cfg) (hb : Blocked s.fileQueue r) {x : Call} {e : Env} {res : x.Ans}
    (hx : x.exec cfg e s = some (res, s')) (hd : Spares s.fileQueue r x)
    (hu : ∀ p d, x ≠ .unlockVirtualFile p d) : Blocked s'.fileQueue r := by
  obtain ⟨f, hf, ho, hc, h0⟩ := hb
  have hfile := (Call.effect hx).file hs hf
  rw [Blocked]
  generalize getFileNode s'.fileQueue r.filepath = o at hfile ⊢
  cases hfile with
  | same => exact ⟨f, rfl, ho, hc, h0⟩
  | opened _ _ hz | locked _ hz => exact absurd hz h0
  | unlocked => exact absurd rfl (hu _ _)
  | closed | deleted => exact absurd rfl (hd f hf rfl)
  | written | appended => exact ⟨_, rfl, ho, hc, h0⟩
  | removed => exact absurd rfl (hd f hf)

/-- A client that has to wait is blocked. -/
theorem lockVirtualFile_wait {p : CString} {d : ℤ} (h : (lockVirtualFile q p d).1 = -2) :
    (lockVirtualFile q p d).2 = q ∧
      ∃ f, getFileNode q p = some f ∧ f.isOpen ∧ f.clientId ≠ d ∧ f.clientId ≠ 0 := by
  refine ⟨lockVirtualFile_fails (by rw [h]; decide), ?_⟩
  unfold lockVirtualFile at h
  cases hf : getFileNode q p with
  | none => simp [hf] at h
  | some f =>
    simp only [hf] at h
    split_ifs at h with h1 h2 h3 <;> try simp at h
    exact ⟨f, rfl, by simpa using h1, h2, h3⟩

theorem openVirtualFile_wait (hs : s.WF cfg) {p : CString} {flags : Flags} {d : ℤ}
    (h : (openVirtualFile cfg s p flags d).1 = -2) :
    (openVirtualFile cfg s p flags d).2.fileQueue = s.fileQueue ∧
      ∃ f, getFileNode s.fileQueue p = some f ∧ f.isOpen ∧ f.clientId ≠ d ∧ f.clientId ≠ 0 := by
  cases hf : getFileNode s.fileQueue p with
  | none =>
    rw [openVirtualFile_none hs hf] at h
    split_ifs at h <;> simp at h
  | some f =>
    rw [openVirtualFile_some hf] at h ⊢
    split_ifs at h ⊢
    · simp at h
    · obtain ⟨hq, f', hf', hw⟩ := lockVirtualFile_wait h
      rw [hf] at hf'
      exact ⟨hq, f', hf', hw⟩

/-- A blocked attempt finds the file of the request held by another client. -/
theorem LockLoop.blocked (hs : s.WF cfg) {a : Act} {b : a.Ans → Bool} {us : List Mutex} {cd : Cond}
    {m : Mutex} (h : LockLoop r a b us cd m) {e : Env} {x : a.Ans}
    (hx : exec cfg a e s = some (x, s')) (hb : b x = true) : Blocked s'.fileQueue r := by
  cases h with
  | opens =>
    have he : openVirtualFile cfg s r.filepath r.flags r.clientId = (x, s') := Option.some.inj hx
    have hw := @openVirtualFile_wait cfg s hs r.filepath r.flags r.clientId
      (by rw [he]; exact of_decide_eq_true hb)
    rw [he] at hw
    rw [Blocked, hw.1]
    exact hw.2
  | locks =>
    obtain ⟨h1, h2⟩ := exec_lock hx
    have hw := lockVirtualFile_wait (h1.trans (of_decide_eq_true hb))
    rw [Blocked, ← h2, hw.1]
    exact hw.2

/-! ## Steps -/

/-- Every worker that sleeps or is about to sleep is blocked or will be woken up. -/
def Attended (c : Conf workerSig Server Request W) : Prop :=
  ∀ w r, (c.thr w).waiting = some r → Blocked c.st.fileQueue r ∨ ∃ v, WillBroadcast (c.thr v)

section
variable (h : Reach (exec cfg) (controller cfg) ok (Conf.init Server.init) c)
  (hst : Step (exec cfg) (controller cfg) w c ev c')
include h hst

/-- A worker starts to wait only when it is blocked. -/
theorem step_waiting {u : W} (hu : (c'.thr u).waiting = some r) :
    (c.thr u).waiting = some r ∨ Blocked c'.st.fileQueue r := by
  rcases hst.waiting controller_shaped (reach_shaped h w) hu with hu | ⟨a, b, us, cd, m, e, x, hl, hx, hb⟩
  · exact Or.inl hu
  · exact Or.inr (hl.blocked (reach_reachable h).wf hx hb)

/-- A blocked worker stays blocked, or will be woken up. -/
theorem step_blocked (hb : Blocked c.st.fileQueue r)
    (hd : ∀ x y, ev = .did (.call x) y → Spares c.st.fileQueue r x) :
    Blocked c'.st.fileQueue r ∨ WillBroadcast (c'.thr w) := by
  have hwf := (reach_reachable h).wf
  rcases hst.st_cases with he | ⟨a, e, y, rfl, hx⟩
  · rw [he]; exact Or.inl hb
  · by_cases ha : ∃ x, a = .call x
    · obtain ⟨x, rfl⟩ := ha
      by_cases hu : ∃ p d, x = .unlockVirtualFile p d
      · obtain ⟨p, d, rfl⟩ := hu
        by_cases h0 : (unlockVirtualFile c.st.fileQueue p d).1 = 0
        · -- the file is unlocked, and the broadcast follows
          have hsh := reach_shaped h w
          cases hst with
          | @act l _ k _ _ _ ht hx =>
            rw [ht] at hsh
            obtain ⟨k', hk⟩ := (hsh.shaped rfl).1
            refine Or.inr ⟨l, k', Or.inl ?_⟩
            show (c.set w _).thr w = _
            rw [Conf.set_self, ← (exec_unlock hx).1, h0, hk]
          | pass ht | park ht =>
            rw [ht] at hsh
            cases (hsh.shaped rfl).1
        · rw [← (exec_unlock hx).2, unlockVirtualFile_fails h0]; exact Or.inl hb
      · exact Or.inl (hb.call hwf hx (hd x y rfl) fun p d he => hu ⟨p, d, he⟩)
    · rw [exec_queue hx fun x he => ha ⟨x, he⟩]; exact Or.inl hb

/-- A worker that will wake the sleeping workers up does so before any other
    goes to sleep. -/
theorem step_willBroadcast {v : W} (hv : WillBroadcast (c.thr v)) :
    WillBroadcast (c'.thr v) ∨ ∀ u, (c'.thr u).waiting = none := by
  by_cases hvw : v = w
  · subst hvw
    obtain ⟨r, k, ht | ht⟩ := hv
    · refine Or.inl ⟨r, k, Or.inr ?_⟩
      cases hst with
      | lock ht' =>
        rw [ht] at ht'
        cases ht'
        show (c.set v _).thr v = _
        rw [Conf.set_self]
      | _ => simp_all
    · -- the sleeping workers are woken up, and `file_lock_mutex` is taken
      refine Or.inr fun u => ?_
      have hown : c.owner .fileLockMutex = some v := by
        have := reach_held_lock h v
        rw [ht] at this
        exact this.1 trivial
      cases hst with
      | broadcast ht' =>
        rw [ht] at ht'
        cases ht'
        by_cases huv : u = v
        · subst huv
          have hsh := reach_shaped h u
          rw [ht] at hsh
          have hk : k.Shaped UnlockWakes (LockLoop r) := hsh.shaped rfl
          rw [Conf.set_self, Thread.waiting, hk.parking]; rfl
        · rw [Conf.set_ne _ _ huv]
          show ((c.thr u).wake _).waiting = none
          cases hu : c.thr u with
          | run l p =>
            have hsh := reach_shaped h u
            have hheld := reach_held_lock h u
            rw [hu] at hsh hheld
            have hp : ¬ p.parking = true := fun hp => huv (Option.some.inj (hown.symm.trans
              (hheld.of_parking hsh (fun _ _ _ _ _ hl => by cases hl <;> rfl) hp))).symm
            exact if_neg hp
          | asleep l cd m p => cases cd; rfl
          | _ => rfl
      | _ => simp_all
  · obtain ⟨r, k, ht⟩ := hv
    rcases hst.other hvw with he | ⟨l, cd, m, p, he, -⟩
    · rw [he]; exact Or.inl ⟨r, k, ht⟩
    · rcases ht with ht | ht <;> rw [he] at ht <;> cases ht

end

/-- In runs that spare the files of the waiting workers, these are attended to. -/
theorem reach_attended
    (h : Reach (exec cfg) (controller cfg) SparesWaited (Conf.init Server.init) c) : Attended c := by
  refine Reach.invariant (I := Attended) (fun w r hr => by cases hr) ?_ h
  intro c w ev c' hc hi hst ho u r hu
  rcases step_waiting hc hst hu with hu' | hb
  · rcases hi u r hu' with hb | ⟨v, hv⟩
    · rcases step_blocked hc hst hb fun x y he => by subst he; exact ho u r hu' with hb | hw
      · exact Or.inl hb
      · exact Or.inr ⟨w, hw⟩
    · rcases step_willBroadcast hc hst hv with hv | hn
      · exact Or.inr ⟨v, hv⟩
      · rw [hn u] at hu; cases hu
  · exact Or.inl hb

end FileStorage
