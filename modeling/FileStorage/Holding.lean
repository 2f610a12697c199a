/-
  Letting go of a file.

  The holder of an open file can unlock or delete it.  All functions that would
  take the lock off a file refuse a closed one, and none opens it again: a file
  that is closed while it is held stays so until it is expelled.
-/
import FileStorage.Failure
import FileStorage.Opening

namespace FileStorage

open Threads

variable {cfg : Config} {s s' : Server} {p : CString} {f : FileNode}

/-- The client `c` can unlock the file, and can delete it. -/
structure LetsGo (q : Queue FileNode) (p : CString) (c : ℤ) : Prop where
  unlocks : (unlockVirtualFile q p c).1 = 0
  unheld : ∃ f, getFileNode (unlockVirtualFile q p c).2 p = some f ∧ f.clientId = 0
  deletes : (deleteVirtualFile q p c).1 = 0
  gone : getFileNode (deleteVirtualFile q p c).2 p = none

/-- A sequence of actions of the workers, with their answers. -/
inductive Acted (cfg : Config) (s : Server) : List (Done workerSig) → Server → Prop
  | refl : Acted cfg s [] s
  | step {t a e x s₁ s'} : Acted cfg s t s₁ → exec cfg a e s₁ = some (x, s') →
      Acted cfg s (t ++ [⟨a, x⟩]) s'

/-- No client can unlock or delete the file, and its node stays as it is as long
    as it is not removed from the queue. -/
structure StaysShut (cfg : Config) (s : Server) (p : CString) (f : FileNode) : Prop where
  unlock : ∀ c, unlockVirtualFile s.fileQueue p c = (-1, s.fileQueue)
  delete : ∀ c, deleteVirtualFile s.fileQueue p c = (-1, s.fileQueue)
  stays : ∀ t s', Acted cfg s t s' → (∀ x, (⟨.call (.removeNode f.addr), x⟩ : Done workerSig) ∉ t) →
    getFileNode s'.fileQueue p = some f

/-! ## Open files -/

theorem letsGo_of_open (hs : s.WF cfg) (hf : getFileNode s.fileQueue p = some f) (ho : f.isOpen) :
    LetsGo s.fileQueue p f.clientId := by
  have hmem := getFileNode_mem hf
  have hunlock : unlockVirtualFile s.fileQueue p f.clientId =
      (0, s.fileQueue.modify f.addr fun f => { f with clientId := 0 }) := by
    simp [unlockVirtualFile, hf, ho]
  have hrem := removeNode_data hs.toWF hmem (Nat.pos_iff_ne_zero.1 (hs.addr f hmem).1)
  have hdelete : deleteVirtualFile s.fileQueue p f.clientId =
      (0, (removeNode s.fileQueue f.addr).2) := by
    simp [deleteVirtualFile, hf, ho, hrem]
  constructor
  · rw [hunlock]
  · have hk : Keeps fun f : FileNode => { f with clientId := 0 } := ⟨fun _ => rfl, fun _ => rfl⟩
    refine ⟨{ f with clientId := 0 }, ?_, rfl⟩
    rw [hunlock, getFileNode_modified hk hs.toWF hf]
  · rw [hdelete]
  · rw [hdelete, getFileNode_remove hs.toWF hmem (Nat.pos_iff_ne_zero.1 (hs.addr f hmem).1),
      getFileNode_pathname hf, if_pos rfl]

/-! ## Closed files -/

/-- A closed file survives every change of the queue but the removal of its node. -/
theorem Effect.keeps_shut {call : Call} {q : Queue FileNode} {b : Ptr} (hs : s.WF cfg)
    (hf : getFileNode s.fileQueue p = some f) (ho : f.isOpen = false)
    (h : Effect cfg s call q b) (hne : call ≠ .removeNode f.addr) : getFileNode q p = some f := by
  have hfile := h.file hs hf
  generalize getFileNode q p = o at hfile ⊢
  cases hfile with
  | same => rfl
  | removed => exact absurd rfl hne
  | opened _ hop | locked hop | unlocked hop | closed hop | written hop | appended hop | deleted hop =>
    rw [ho] at hop
    cases hop

theorem Acted.wf {t : List (Done workerSig)} (h : Acted cfg s t s') (hs : s.WF cfg) : s'.WF cfg := by
  induction h with
  | refl => exact hs
  | step _ hx ih => exact exec_wf ih hx

theorem Acted.keeps_shut {t : List (Done workerSig)} (h : Acted cfg s t s') (hs : s.WF cfg)
    (hf : getFileNode s.fileQueue p = some f) (ho : f.isOpen = false)
    (hno : ∀ x, (⟨.call (.removeNode f.addr), x⟩ : Done workerSig) ∉ t) :
    getFileNode s'.fileQueue p = some f := by
  induction h with
  | refl => exact hf
  | @step t a e x s₁ s' hacted hx ih =>
    have hf₁ := ih fun y hy => hno y (List.mem_append_left _ hy)
    cases a with
    | call c =>
      refine (Call.effect hx).keeps_shut (hacted.wf hs) hf₁ ho ?_
      rintro rfl
      exact hno x (List.mem_append_right _ (List.mem_singleton.2 rfl))
    | crash => cases hx
    | _ => cases hx; exact hf₁

end FileStorage
