/-
  Room for the new bytes of a write or append.

  `expelFile` looks for one file whose removal makes room, and returns an unset
  pointer if there is none; its callers test the pointer and then go on.  A
  request that exceeds the free space is either refused before anything is
  sent or removed (`Refuses`), or an expulsion makes room for it (`MakesRoom`).
  `roomOrRefused_iff` says exactly when one of these is the case;
  `room_iff_of_fits` is its condition for a store within its capacity.
-/
import FileStorage.Capacity

namespace FileStorage

open Threads Prog

variable {cfg : Config} {s : Server} {r : Request}

/-- The action neither sends nor removes anything. -/
def quiet : Done workerSig → Bool
  | ⟨.write _, _⟩ | ⟨.writeBytes _, _⟩ | ⟨.call (.removeNode _), _⟩ => false
  | _ => true

/-- The controller answers `-1` before it sends or removes anything. -/
def Refuses (cfg : Config) (s : Server) (r : Request) : Prop :=
  ∀ t o s', Runs (exec cfg) (controller cfg r) s t o s' →
    ∃ d, t.find? (! quiet ·) = some d ∧ ∃ x ok, d = ⟨.write x, ok⟩ ∧ x.statusCode = -1

/-- `expelFile` yields a node of the queue, which is removed, and then there is
    room for the new bytes. -/
def MakesRoom (cfg : Config) (s : Server) (r : Request) : Prop :=
  ∀ t o s', Runs (exec cfg) (controller cfg r) s t o s' → ∃ x ∈ s.fileQueue.data,
    ⟨.call (.expelFile (i32 r.fileSize)), x.addr⟩ ∈ t ∧ ⟨.call (.removeNode x.addr), (0 : ℤ)⟩ ∈ t ∧
    (removeNode s.fileQueue x.addr).2.total + r.fileSize ≤ cfg.maxMemSize.toNat

/-- The request exceeds the free space. -/
def Exceeds (cfg : Config) (q : Queue FileNode) (r : Request) : Prop :=
  cfg.maxMemSize.toNat < q.total + r.fileSize

/-- What is required of a write or append: if it exceeds the free space, it is
    refused, or an expulsion makes room for it; and a write that is not larger
    than the capacity is not refused. -/
def RoomOrRefused (cfg : Config) (s : Server) (r : Request) : Prop :=
  Exceeds cfg s.fileQueue r → (Refuses cfg s r ∨ MakesRoom cfg s r) ∧
    (r.operation = .OP_WRITE_FILE → r.fileSize ≤ cfg.maxMemSize.toNat → MakesRoom cfg s r)

/-- If the request exceeds the free space, it is a write larger than the capacity;
    or the first file that passes the test of `expelFile` makes room; or, for an
    append that `getFreeSpace` lets through without an expulsion, the client has
    no lock. -/
def RoomFor (cfg : Config) (q : Queue FileNode) (r : Request) : Prop :=
  Exceeds cfg q r → r.tooBig cfg ∨
    (NeedsExpulsion cfg q r ∧ ∃ x, victim cfg q (i32 r.fileSize) = some x ∧
      q.total - x.size + r.fileSize ≤ cfg.maxMemSize.toNat) ∨
    (r.operation = .OP_APPEND_FILE ∧ ¬ NeedsExpulsion cfg q r ∧
      hasFileLock q r.filepath r.clientId ≠ 0)

/-! ## Runs up to the first response after the lock check -/

/-- The first response after the lock check. -/
def lockAnswer (q : Queue FileNode) (r : Request) : Response :=
  if hasFileLock q r.filepath r.clientId = 0 then
    respond 0 (str "Ready to receive file, client has lock")
  else respond (-1) (str "The client doesnt have lock, aborting")

/-- The actions from the lock check on if the first response cannot be sent. -/
def cutTrace (q : Queue FileNode) (r : Request) : List (Done workerSig) :=
  [⟨.call (.hasFileLock r.filepath r.clientId), hasFileLock q r.filepath r.clientId⟩,
    ⟨.write (lockAnswer q r), false⟩]

theorem appendFileBody_cut :
    Runs (exec cfg) (appendFileBody r) s (cutTrace s.fileQueue r) .returned s := by
  have hrun : run (exec cfg) (appendFileBody r) (.replicate 2 ⟨false, [], 0, NULL⟩) s =
      some (cutTrace s.fileQueue r, .returned, s) := by
    by_cases h : hasFileLock s.fileQueue r.filepath r.clientId = 0 <;>
      simp [run, appendFileBody, exec, Call.exec, cutTrace, lockAnswer, h]
  exact run_sound hrun

theorem writeFileBody_cut :
    Runs (exec cfg) (writeFileBody r) s (cutTrace s.fileQueue r) .returned s := by
  have hrun : run (exec cfg) (writeFileBody r) (.replicate 2 ⟨false, [], 0, NULL⟩) s =
      some (cutTrace s.fileQueue r, .returned, s) := by
    by_cases h : hasFileLock s.fileQueue r.filepath r.clientId = 0 <;>
      simp [run, writeFileBody, exec, Call.exec, cutTrace, lockAnswer, h]
  exact run_sound hrun

theorem storeBody_cut : Runs (exec cfg) (storeBody r) s (cutTrace s.fileQueue r) .returned s := by
  unfold storeBody
  split_ifs
  · exact writeFileBody_cut
  · exact appendFileBody_cut

theorem expelledBody_cut : ∃ t s', Runs (exec cfg) (expelledBody r 0) s t .returned s' ∧
    ∀ n (a : Ptr), (⟨.call (.expelFile n), a⟩ : Done workerSig) ∉ t := by
  unfold expelledBody
  split_ifs with hw h0
  · exact ⟨_, _, .act (e := ⟨true, [], 0, NULL⟩) rfl writeFileBody_cut, by simp [cutTrace]⟩
  · exact ⟨_, _, writeFileBody_cut, by simp [cutTrace]⟩
  · exact ⟨_, _, appendFileBody_cut, by simp [cutTrace]⟩

/-! ## The alternatives -/

section
variable (hop : r.operation = .OP_WRITE_FILE ∨ r.operation = .OP_APPEND_FILE)
include hop

theorem refuses_tooBig (hb : r.tooBig cfg) : Refuses cfg s r := by
  intro t o s' h
  obtain ⟨t', rfl, h'⟩ := (store_runs hop).1 h
  rw [storeBranch, if_pos hb] at h'
  obtain ⟨_, ok, s₁, t₁, -, rfl, -⟩ | ⟨hx, -⟩ := h'.act_cases
  swap; · cases hx ⟨true, [], 0, NULL⟩
  exact ⟨_, rfl, _, _, rfl, rfl⟩

/-- The expulsion of a sufficient victim makes room. -/
theorem makesRoom_victim (hs : s.WF cfg) (hn : NeedsExpulsion cfg s.fileQueue r) {x : FileNode}
    (hx : victim cfg s.fileQueue (i32 r.fileSize) = some x)
    (hroom : s.fileQueue.total - x.size + r.fileSize ≤ cfg.maxMemSize.toNat) : MakesRoom cfg s r := by
  intro t o s' h
  obtain ⟨t', rfl, h'⟩ := (store_runs hop).1 h
  rw [storeBranch, if_neg hn.2.1, if_pos hn.2.2] at h'
  have hmem := victim_mem hx
  obtain ⟨u, ⟨hd, -⟩ | ⟨f, hf, he, sent, t₁, rfl, -⟩⟩ := expulsion_runs hs h'
  · rw [expelFile_eq hx, hs.toWF.deref_of_mem hmem] at hd
    cases hd
  · rw [expelFile_eq hx] at he
    obtain rfl := hs.toWF.eq_of_addr hmem hf he
    refine ⟨x, hmem, by simp [expulsionTrace], by simp [expulsionTrace], ?_⟩
    have := total_remove hs.toWF hmem (Nat.pos_iff_ne_zero.1 (hs.addr x hmem).1)
    omega

/-- An append that is let through without an expulsion is refused without the lock. -/
theorem refuses_unlocked (ha : r.operation = .OP_APPEND_FILE)
    (hn : ¬ NeedsExpulsion cfg s.fileQueue r)
    (hl : hasFileLock s.fileQueue r.filepath r.clientId ≠ 0) : Refuses cfg s r := by
  intro t o s' h
  have hb : ¬ r.tooBig cfg := fun hb => by (cases ha.symm.trans hb.1)
  obtain ⟨t', rfl, h'⟩ := (store_runs hop).1 h
  rw [storeBranch, if_neg hb, if_neg ((needsExpulsion_iff hop hb).not.1 hn), storeBody,
    if_neg (by simp [ha])] at h'
  obtain ⟨_, _, s₁, t₁, hx, rfl, h₁⟩ | ⟨hx, -⟩ := h'.act_cases
  swap; · cases hx ⟨true, [], 0, NULL⟩
  cases hx
  obtain ⟨_, _, s₁, t₁, hx, rfl, h₂⟩ | ⟨hx, -⟩ := h₁.act_cases
  swap; · cases hx ⟨true, [], 0, NULL⟩
  cases hx
  dsimp only at h₂
  rw [if_neg hl] at h₂
  obtain ⟨_, ok, s₁, t₁, hx, rfl, -⟩ | ⟨hx, -⟩ := h₂.act_cases
  swap; · cases hx ⟨true, [], 0, NULL⟩
  exact ⟨_, rfl, _, _, rfl, rfl⟩

/-- Neither alternative holds if `expelFile` finds no file. -/
theorem expulsion_without_victim (hs : s.WF cfg) (hn : NeedsExpulsion cfg s.fileQueue r)
    (hv : victim cfg s.fileQueue (i32 r.fileSize) = none) : ¬ Refuses cfg s r ∧ ¬ MakesRoom cfg s r := by
  have hrun := (store_runs hop).2 ⟨_, rfl, show Runs (exec cfg) _ s _ _ _ by
    rw [storeBranch, if_neg hn.2.1, if_pos hn.2.2]
    exact expulsion_null hs hv⟩
  constructor
  · intro h
    obtain ⟨d, hd, -⟩ := h _ _ _ hrun
    simp [quiet] at hd
  · intro h
    obtain ⟨x, hx, -, hmem, -⟩ := h _ _ _ hrun
    simp at hmem

/-- Nor if the expulsion of the victim does not make enough room. -/
theorem expulsion_without_room (hs : s.WF cfg) (hn : NeedsExpulsion cfg s.fileQueue r) {x : FileNode}
    (hx : victim cfg s.fileQueue (i32 r.fileSize) = some x)
    (hroom : ¬ s.fileQueue.total - x.size + r.fileSize ≤ cfg.maxMemSize.toNat) :
    ¬ Refuses cfg s r ∧ ¬ MakesRoom cfg s r := by
  have hmem := victim_mem hx
  obtain ⟨t, s', hcut, hno⟩ := @expelledBody_cut cfg (expelled s r x) r
  have hrun := (store_runs hop).2 ⟨_, rfl, show Runs (exec cfg) _ s _ _ _ by
    rw [storeBranch, if_neg hn.2.1, if_pos hn.2.2]
    exact expulsion_run (u := NULL) hs hmem (expelFile_eq hx) hcut⟩
  constructor
  · intro h
    obtain ⟨d, hd, y, ok, rfl, hy⟩ := h _ _ _ hrun
    simp [quiet, expulsionTrace] at hd
    rw [← hd.1] at hy
    cases hy
  · intro h
    obtain ⟨z, hz, he, -, hle⟩ := h _ _ _ hrun
    simp [expulsionTrace, hno] at he
    obtain rfl := hs.toWF.eq_of_addr hz hmem he
    have := total_remove hs.toWF hmem (Nat.pos_iff_ne_zero.1 (hs.addr z hmem).1)
    omega

/-- Nor if the request is let through without an expulsion, and it is a write or
    the client has the lock. -/
theorem no_expulsion (hb : ¬ r.tooBig cfg) (hn : ¬ NeedsExpulsion cfg s.fileQueue r) :
    (hasFileLock s.fileQueue r.filepath r.clientId = 0 → ¬ Refuses cfg s r) ∧ ¬ MakesRoom cfg s r := by
  have hrun := (store_runs hop).2 ⟨_, rfl, show Runs (exec cfg) _ s _ _ _ by
    rw [storeBranch, if_neg hb, if_neg ((needsExpulsion_iff hop hb).not.1 hn)]
    exact .act (e := ⟨true, [], 0, NULL⟩) rfl storeBody_cut⟩
  constructor
  · intro hl h
    obtain ⟨d, hd, y, ok, rfl, hy⟩ := h _ _ _ hrun
    simp [quiet, cutTrace, lockAnswer, hl] at hd
    rw [← hd.1] at hy
    cases hy
  · intro h
    obtain ⟨z, hz, he, -, hle⟩ := h _ _ _ hrun
    simp [cutTrace] at he

end

/-! ## The exact condition -/

/-- **When there is room or the request is refused.** -/
theorem roomOrRefused_iff (hs : Reachable cfg s)
    (hop : r.operation = .OP_WRITE_FILE ∨ r.operation = .OP_APPEND_FILE) :
    RoomOrRefused cfg s r ↔ RoomFor cfg s.fileQueue r := by
  refine imp_congr_right fun _ => ?_
  constructor
  · rintro ⟨halt, hwrite⟩
    by_cases hb : r.tooBig cfg
    · exact Or.inl hb
    by_cases hn : NeedsExpulsion cfg s.fileQueue r
    · refine Or.inr (Or.inl ⟨hn, ?_⟩)
      cases hv : victim cfg s.fileQueue (i32 r.fileSize) with
      | none =>
        obtain ⟨h1, h2⟩ := expulsion_without_victim hop hs.wf hn hv
        exact absurd halt (not_or.2 ⟨h1, h2⟩)
      | some x =>
        refine ⟨x, rfl, ?_⟩
        by_contra hroom
        obtain ⟨h1, h2⟩ := expulsion_without_room hop hs.wf hn hv hroom
        exact absurd halt (not_or.2 ⟨h1, h2⟩)
    · obtain ⟨h1, h2⟩ := no_expulsion (s := s) hop hb hn
      obtain hw | ha := hop
      · exact absurd (hwrite hw (not_lt.1 fun hlt => hb ⟨hw, hlt⟩)) h2
      · exact Or.inr (Or.inr ⟨ha, hn, fun hl => absurd halt (not_or.2 ⟨h1 hl, h2⟩)⟩)
  · rintro (hb | ⟨hn, x, hx, hroom⟩ | ⟨ha, hn, hl⟩)
    · exact ⟨Or.inl (refuses_tooBig hop hb), fun _ hle => absurd hb.2 (not_lt.2 hle)⟩
    · have h := makesRoom_victim hop hs.wf hn hx hroom
      exact ⟨Or.inr h, fun _ _ => h⟩
    · exact ⟨Or.inl (refuses_unlocked hop ha hn hl), fun hw => by (cases hw.symm.trans ha)⟩

/-- In a store within its capacity some file must be large enough. -/
theorem room_iff_of_fits (hM : cfg.maxMemSize.toNat ≤ INT_MAX) (hs : Fits cfg s)
    (hop : r.operation = .OP_WRITE_FILE ∨ r.operation = .OP_APPEND_FILE)
    (hfull : Exceeds cfg s.fileQueue r) :
    RoomFor cfg s.fileQueue r ↔ r.tooBig cfg ∨
      ∃ f ∈ s.fileQueue.data, s.fileQueue.total - f.size + r.fileSize ≤ cfg.maxMemSize.toNat := by
  have hle := hs.total
  have hneed : ¬ r.tooBig cfg → NeedsExpulsion cfg s.fileQueue r := by
    intro hb
    unfold INT_MAX at hM
    unfold Exceeds at hfull
    rw [needsExpulsion_iff hop hb, getFreeSpace_exact hM hle, u64_eq (by omega) (by omega)]
    omega
  rw [RoomFor, forall_prop_of_true hfull]
  constructor
  · rintro (hb | ⟨-, x, hx, hroom⟩ | ⟨ha, hn, -⟩)
    · exact Or.inl hb
    · exact Or.inr ⟨x, victim_mem hx, hroom⟩
    · exact absurd (hneed fun hb => by (cases ha.symm.trans hb.1)) hn
  · rintro (hb | ⟨f, hf, hroom⟩)
    · exact Or.inl hb
    by_cases hb : r.tooBig cfg
    · exact Or.inl hb
    have hr : r.fileSize ≤ INT_MAX := by omega
    have hpass := (makesRoom_exact hM hle hr (size_le_total hf)).2 hroom
    obtain ⟨x, hx⟩ := Option.isSome_iff_exists.1 (List.find?_isSome.2 ⟨f, hf, hpass⟩)
    refine Or.inr (Or.inl ⟨hneed hb, x, hx, ?_⟩)
    exact (makesRoom_exact hM hle hr (size_le_total (victim_mem hx))).1 (List.find?_some hx)

/-- A full store of eight bytes, with two files of four bytes. -/
def scattered : Server where
  fileQueue := ⟨[⟨1, [47, 97], some [1, 2, 3, 4], 4, 1, true⟩,
    ⟨2, [47, 98], some [5, 6, 7, 8], 4, 1, true⟩], 2⟩
  stats := ⟨2, 8, 0⟩
  log := [⟨⟨1, .OP_OPEN_FILE, [47, 97], O_CREATE ||| O_LOCK, 0⟩, 0, 0, none⟩,
    ⟨⟨1, .OP_WRITE_FILE, [47, 97], 0, 4⟩, 0, 4, none⟩,
    ⟨⟨1, .OP_OPEN_FILE, [47, 98], O_CREATE ||| O_LOCK, 0⟩, 0, 0, none⟩,
    ⟨⟨1, .OP_WRITE_FILE, [47, 98], 0, 4⟩, 0, 4, none⟩]
  brk := 3

theorem scattered_reachable : Reachable ⟨8, 4⟩ scattered := by
  have h : Handled ⟨8, 4⟩ InBounds scattered := serve_handled Server.init [
    (⟨1, .OP_OPEN_FILE, [47, 97], O_CREATE ||| O_LOCK, 0⟩, .replicate 9 ⟨true, [], 0, NULL⟩),
    (⟨1, .OP_WRITE_FILE, [47, 97], 0, 4⟩, .replicate 9 ⟨true, [1, 2, 3, 4], 0, NULL⟩),
    (⟨1, .OP_OPEN_FILE, [47, 98], O_CREATE ||| O_LOCK, 0⟩, .replicate 9 ⟨true, [], 0, NULL⟩),
    (⟨1, .OP_WRITE_FILE, [47, 98], 0, 4⟩, .replicate 9 ⟨true, [5, 6, 7, 8], 0, NULL⟩)]
    (by decide +kernel) .init
  exact h.reachable

theorem roomOrRefused_scattered : RoomOrRefused ⟨8, 4⟩ scattered ⟨1, .OP_WRITE_FILE, [47, 98], 0, 4⟩ :=
  (roomOrRefused_iff scattered_reachable (Or.inl rfl)).2
    fun _ => Or.inr (Or.inl ⟨by decide, _, rfl, by decide⟩)

/-- A write of six bytes fits the capacity, but no single file makes room. -/
theorem not_roomOrRefused_scattered : Reachable ⟨8, 4⟩ scattered ∧
    Exceeds ⟨8, 4⟩ scattered.fileQueue ⟨1, .OP_WRITE_FILE, [47, 98], 0, 6⟩ ∧
    ¬ RoomOrRefused ⟨8, 4⟩ scattered ⟨1, .OP_WRITE_FILE, [47, 98], 0, 6⟩ := by
  have hfull : Exceeds ⟨8, 4⟩ scattered.fileQueue ⟨1, .OP_WRITE_FILE, [47, 98], 0, 6⟩ := by
    show (8 : ℕ) < _
    decide
  refine ⟨scattered_reachable, hfull, fun h => ?_⟩
  obtain ⟨h1, h2⟩ := expulsion_without_victim (r := ⟨1, .OP_WRITE_FILE, [47, 98], 0, 6⟩) (Or.inl rfl)
    scattered_reachable.wf (by decide) (by decide)
  exact absurd (h hfull).1 (not_or.2 ⟨h1, h2⟩)

end FileStorage
