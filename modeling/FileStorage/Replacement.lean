/-
  The number of replacements.

  Three views should agree: the files that writes and appends have removed from
  the queue, `num_file_replacement`, and the records of the log that name a
  replaced file.  The queue and the log always do (`replacedRecords_eq`).
  `append_file_controller` removes the expelled file without counting it, so
  that the counter agrees as long as only writes expel
  (`replacementsAgree_iff`).
-/
import FileStorage.Records

namespace FileStorage

open Threads Prog

variable {cfg : Config} {r : Request} {R : Round} {h h' : List Round}

/-! ## Runs of requests -/

/-- The state after the rounds, the last one first. -/
def stateAfter : List Round → Server
  | [] => Server.init
  | R :: _ => R.after

/-- The runs of requests, with any outcome of the reads and writes on the
    sockets, in which `expelFile` has a sufficient file whenever it is called.
    A request that waits makes its further attempts between the others. -/
inductive Answered (cfg : Config) : List Round → Prop
  | nil : Answered cfg []
  | request {h r t o s} : Answered cfg h → HasVictim cfg (stateAfter h).fileQueue r →
      Runs (exec cfg) (controller cfg r) (stateAfter h) t o s →
      Answered cfg (⟨r, t, stateAfter h, s⟩ :: h)
  | again {h r t o s} : Answered cfg h →
      r.operation = .OP_OPEN_FILE ∨ r.operation = .OP_LOCK_FILE →
      Runs (exec cfg) (attempt r) (stateAfter h) t o s →
      Answered cfg (⟨r, t, stateAfter h, s⟩ :: h)

theorem Answered.wf (ha : Answered cfg h) : (stateAfter h).WF cfg := by
  induction ha with
  | nil => exact .init cfg
  | request _ _ hr ih | again _ _ hr ih =>
    exact hr.invariant (fun _ _ _ _ _ hs hx => exec_wf hs hx) ih

theorem Answered.suffix (ha : Answered cfg h) (hs : h' <:+ h) : Answered cfg h' := by
  induction ha with
  | nil => rw [List.suffix_nil.1 hs]; exact .nil
  | request ha hv hr ih =>
    rcases List.suffix_cons_iff.1 hs with rfl | hs
    · exact ha.request hv hr
    · exact ih hs
  | again ha hw hr ih =>
    rcases List.suffix_cons_iff.1 hs with rfl | hs
    · exact ha.again hw hr
    · exact ih hs

/-- The number of files that a write or append removes. -/
def Round.expelledFiles (R : Round) : ℕ :=
  if R.request.operation = .OP_WRITE_FILE ∨ R.request.operation = .OP_APPEND_FILE then
    (addrs R.before).countP (· ∉ addrs R.after) else 0

/-- The number of records that name a replaced file. -/
def replacedRecords (log : List LogRecord) : ℕ := log.countP (·.replacedFile.isSome)

/-- The three views agree after the rounds. -/
structure ReplacementsAgree (h : List Round) : Prop where
  files : (stateAfter h).stats.numFileReplacement = (h.map Round.expelledFiles).sum
  records : (stateAfter h).stats.numFileReplacement = replacedRecords (stateAfter h).log

/-! ## One round -/

/-- Whether the request of the round expels a file. -/
def Round.Expels (cfg : Config) (R : Round) : Prop := NeedsExpulsion cfg R.before.fileQueue R.request

instance : Decidable (R.Expels cfg) := inferInstanceAs (Decidable (NeedsExpulsion _ _ _))

/-- What a round does to the three views. -/
structure Round.Balanced (cfg : Config) (R : Round) : Prop where
  files : R.expelledFiles = if R.Expels cfg then 1 else 0
  log : replacedRecords R.after.log =
    (if R.Expels cfg then 1 else 0) + replacedRecords R.before.log
  counter : R.after.stats.numFileReplacement =
    if R.Expels cfg ∧ R.request.operation = .OP_WRITE_FILE then
      incNumFileReplacement R.before.stats.numFileReplacement
    else R.before.stats.numFileReplacement

theorem countP_removed {l : List Ptr} {a : Ptr} (hl : l.Nodup) (ha : a ∈ l) :
    l.countP (fun x => decide (x ∉ l.filter (· ≠ a))) = 1 := by
  have hcount : l.countP (fun x => decide (x ∉ l.filter (· ≠ a))) = l.count a := by
    refine List.countP_congr fun x hx => ?_
    simp [hx]
  rw [hcount, List.count_eq_one_of_mem hl ha]

theorem countP_kept {l : List Ptr} : l.countP (fun x => decide (x ∉ l)) = 0 := by
  refine List.countP_eq_zero.2 fun x hx => ?_
  simp [hx]

/-- The views after a round, from its trace. -/
theorem Round.Balanced.of_trace {s s' : Server} {t : List (Done workerSig)} {o : Outcome} {p : Code}
    (hr : Runs (exec cfg) p s t o s')
    (hf : (⟨r, t, s, s'⟩ : Round).expelledFiles = if NeedsExpulsion cfg s.fileQueue r then 1 else 0)
    (hl : replacedRecords (recordsOf t) = if NeedsExpulsion cfg s.fileQueue r then 1 else 0)
    (hi : increments t = if NeedsExpulsion cfg s.fileQueue r ∧ r.operation = .OP_WRITE_FILE then 1
      else 0) : (⟨r, t, s, s'⟩ : Round).Balanced cfg := by
  have hrec := runs_recorded hr
  have hlog : s'.log = s.log ++ recordsOf t := congrArg Prod.fst hrec
  have hcount := congrArg Prod.snd hrec
  refine ⟨hf, ?_, ?_⟩
  · rw [hlog, replacedRecords, List.countP_append, add_comm]
    exact congrArg (· + _) hl
  · rw [hi] at hcount
    by_cases hc : NeedsExpulsion cfg s.fileQueue r ∧ r.operation = .OP_WRITE_FILE
    · rw [if_pos hc] at hcount
      exact hcount.trans (if_pos hc).symm
    · rw [if_neg hc] at hcount
      exact hcount.trans (if_neg hc).symm

/-- A round that expels nothing. -/
theorem Round.Balanced.of_quiet {s s' : Server} {t : List (Done workerSig)} {o : Outcome} {p : Code}
    (hr : Runs (exec cfg) p s t o s') (hn : ¬ NeedsExpulsion cfg s.fileQueue r)
    (hf : (⟨r, t, s, s'⟩ : Round).expelledFiles = 0) (hl : replacedRecords (recordsOf t) = 0)
    (hi : increments t = 0) : (⟨r, t, s, s'⟩ : Round).Balanced cfg := by
  refine .of_trace hr ?_ ?_ ?_
  · rw [hf, if_neg hn]
  · rw [hl, if_neg hn]
  · rw [hi, if_neg fun h => hn h.1]

/-- A round of a request that is no write or append. -/
theorem Round.Balanced.of_other {s s' : Server} {t : List (Done workerSig)} {o : Outcome} {p : Code}
    (hr : Runs (exec cfg) p s t o s')
    (hop : ¬ (r.operation = .OP_WRITE_FILE ∨ r.operation = .OP_APPEND_FILE))
    (hl : replacedRecords (recordsOf t) = 0) (hi : increments t = 0) :
    (⟨r, t, s, s'⟩ : Round).Balanced cfg :=
  .of_quiet hr (fun hn => hop hn.1) (if_neg hop) hl hi

/-- A controller that does not store. -/
theorem other_balanced {s s' : Server} {t : List (Done workerSig)} {o : Outcome}
    (hop : ¬ (r.operation = .OP_WRITE_FILE ∨ r.operation = .OP_APPEND_FILE))
    (hr : Runs (exec cfg) (controller cfg r) s t o s') : (⟨r, t, s, s'⟩ : Round).Balanced cfg := by
  obtain ⟨hw, ha⟩ := not_or.1 hop
  by_cases hread : r.operation = .OP_READ_FILE
  · obtain ⟨hl, hi⟩ := read_records hread hr
    refine .of_other hr hop ?_ hi
    rcases hl with hl | hl
    · rw [hl]; rfl
    · rw [hl]; rfl
  by_cases hu : ∃ n, r.operation = .unknown n
  · obtain ⟨n, hu⟩ := hu
    refine .of_other hr hop ?_ ?_
    · rw [controller, hu] at hr
      cases hr
      rfl
    · rw [controller, hu] at hr
      cases hr
      rfl
  · obtain ⟨t', rfl, ⟨hl, hi⟩, -⟩ := logsFirst_trace hw ha hread (fun n hn => hu ⟨n, hn⟩) hr
    refine .of_other hr hop ?_ ?_
    · rw [recordsOf_cons, hl]
      rfl
    · rw [increments_cons, hi]
      rfl

/-- A write or append. -/
theorem store_balanced {s s' : Server} {t : List (Done workerSig)} {o : Outcome} (hs : s.WF cfg)
    (hv : HasVictim cfg s.fileQueue r)
    (hop : r.operation = .OP_WRITE_FILE ∨ r.operation = .OP_APPEND_FILE)
    (hr : Runs (exec cfg) (controller cfg r) s t o s') : (⟨r, t, s, s'⟩ : Round).Balanced cfg := by
  have hbody : Budget Act.relinks (storeBody r) 0 :=
    storeBody_costs Act.relinks_of_calm (fun _ => le_rfl) fun _ => le_rfl
  have hkept : addrs s' = addrs s → (⟨r, t, s, s'⟩ : Round).expelledFiles = 0 := by
    intro hk
    rw [Round.expelledFiles, if_pos hop]
    exact hk ▸ countP_kept
  cases store_trace hs hop hr with
  | tooBig ok hbig ht hs' =>
    refine .of_quiet hr (fun hn => hn.2.1 hbig) (hkept (by rw [hs'])) ?_ ?_
    · rw [ht]; rfl
    · rw [ht]; rfl
  | killed u hneed hd =>
    obtain ⟨f, hf⟩ := Option.isSome_iff_exists.1 (hv hneed)
    rw [expelFile_eq hf, hs.toWF.deref_of_mem (victim_mem hf)] at hd
    cases hd
  | @expelled f s₁ t' u sent hneed hf _ ht hq hbr =>
    obtain ⟨hl, hi⟩ := runs_unrecorded hbr storeBody_records
    have ha : addrs s' = (addrs s).filter (· ≠ f.addr) := by
      rw [(runs_addrs hbr hbody).1, addrs, hq, addrs_remove hs hf]
    refine .of_trace hr ?_ ?_ ?_
    · rw [if_pos hneed, Round.expelledFiles, if_pos hop]
      exact ha ▸ countP_removed hs.addrs (List.mem_map_of_mem hf)
    · rw [if_pos hneed, ht, recordsOf_append, recordsOf_append, recordsOf_append, hl,
        recordsOf_expulsionTrace, recordsOf_incremental]
      rfl
    · rw [ht, increments_append, increments_append, increments_append, hi, increments_expulsionTrace,
        increments_incremental]
      simp only [hneed, true_and]
      exact Nat.zero_add _
  | stored hbig hneed ht hq hbr =>
    obtain ⟨hl, hi⟩ := runs_unrecorded hbr storeBody_records
    have ha : addrs s' = addrs s := by rw [(runs_addrs hbr hbody).1, addrs, hq, addrs]
    refine .of_quiet hr hneed (hkept ha) ?_ ?_
    · rw [ht, recordsOf_append, hl]; rfl
    · rw [ht, increments_append, hi]; rfl

/-- **What every round does to the three views.** -/
theorem Answered.balanced (ha : Answered cfg (R :: h)) :
    R.before = stateAfter h ∧ R.Balanced cfg := by
  cases ha with
  | @request _ r t o s ha hv hr =>
    refine ⟨rfl, ?_⟩
    by_cases hop : r.operation = .OP_WRITE_FILE ∨ r.operation = .OP_APPEND_FILE
    · exact store_balanced ha.wf hv hop hr
    · exact other_balanced hop hr
  | @again _ r t o s ha hw hr =>
    obtain ⟨hl, hi⟩ := runs_unrecorded hr attempt_records.1
    refine ⟨rfl, .of_other hr ?_ (by rw [hl]; rfl) hi⟩
    rcases hw with hw | hw <;> simp [hw]

theorem Answered.tail (ha : Answered cfg (R :: h)) : Answered cfg h := ha.suffix (List.suffix_cons R h)

/-! ## The three views -/

/-- **The log records every expulsion.** -/
theorem replacedRecords_eq (ha : Answered cfg h) :
    replacedRecords (stateAfter h).log = (h.map Round.expelledFiles).sum := by
  induction h with
  | nil => rfl
  | cons R h ih =>
    obtain ⟨hb, hbal⟩ := ha.balanced
    rw [List.map_cons, List.sum_cons, hbal.files, ← ih ha.tail, ← hb]
    exact hbal.log

/-- Only writes expel, and none of them when the counter is at its maximum. -/
def Counted (cfg : Config) (h : List Round) : Prop :=
  ∀ R ∈ h, R.Expels cfg →
    R.request.operation = .OP_WRITE_FILE ∧ R.before.stats.numFileReplacement < INT_MAX

theorem Answered.agree (ha : Answered cfg h) (hc : Counted cfg h) : ReplacementsAgree h := by
  -- the number of replacements is that of the expulsions
  have hfiles : (stateAfter h).stats.numFileReplacement = (h.map Round.expelledFiles).sum := by
    induction h with
    | nil => rfl
    | cons R h ih =>
      obtain ⟨hb, hbal⟩ := ha.balanced
      have hrec := ih ha.tail fun R' hR' => hc R' (List.mem_cons_of_mem R hR')
      rw [List.map_cons, List.sum_cons, hbal.files]
      refine hbal.counter.trans ?_
      rw [hb, hrec]
      by_cases hx : R.Expels cfg
      · obtain ⟨hw, hlt⟩ := hc R List.mem_cons_self hx
        rw [hb, hrec] at hlt
        simp only [INT_MAX] at hlt
        rw [if_pos ⟨hx, hw⟩, if_pos hx, incNumFileReplacement, i32_eq (by omega) (by omega)]
        omega
      · rw [if_neg fun h => hx h.1, if_neg hx]
        omega
  exact ⟨hfiles, by rw [hfiles, replacedRecords_eq ha]⟩

/-- **The three views agree throughout a run, if and only if only writes expel**,
    fewer than `2^31` times. -/
theorem replacementsAgree_iff (ha : Answered cfg h) :
    (∀ h', h' <:+ h → ReplacementsAgree h') ↔ Counted cfg h := by
  constructor
  · intro hagree R hR hx
    obtain ⟨h₁, h₂, rfl⟩ := List.append_of_mem hR
    have hsuf : R :: h₂ <:+ h₁ ++ R :: h₂ := List.suffix_append _ _
    obtain ⟨hb, hbal⟩ := (ha.suffix hsuf).balanced
    have hafter := (hagree _ hsuf).files
    have hbefore := (hagree h₂ ((List.suffix_cons R h₂).trans hsuf)).files
    rw [List.map_cons, List.sum_cons, hbal.files, if_pos hx] at hafter
    have hcount := hbal.counter
    change (stateAfter (R :: h₂)).stats.numFileReplacement = _ at hcount
    rw [hafter, hb, hbefore] at hcount
    by_cases hw : R.request.operation = .OP_WRITE_FILE
    · refine ⟨hw, ?_⟩
      rw [if_pos ⟨hx, hw⟩, incNumFileReplacement] at hcount
      have hle := (i32_bounds (((h₂.map Round.expelledFiles).sum : ℕ) + 1)).2
      rw [hb, hbefore, INT_MAX]
      omega
    · rw [if_neg fun h => hw h.2] at hcount
      omega
  · intro hc h' hs
    exact (ha.suffix hs).agree fun R hR => hc R (hs.subset hR)

/-! ## Runs with an expulsion -/

/-- Handle the requests one after the other, each with the environments of its
    actions. -/
def answer (cfg : Config) : List (Request × List Env) → List Round → Option (List Round)
  | [], h => some h
  | (r, es) :: rs, h => if HasVictim cfg (stateAfter h).fileQueue r then
      (run (exec cfg) (controller cfg r) es (stateAfter h)).bind fun x =>
        answer cfg rs (⟨r, x.1, stateAfter h, x.2.2⟩ :: h)
    else none

theorem answer_answered (rs : List (Request × List Env)) (hx : answer cfg rs h = some h')
    (ha : Answered cfg h) : Answered cfg h' := by
  induction rs generalizing h with
  | nil => cases hx; exact ha
  | cons x rs ih =>
    rw [answer] at hx
    split_ifs at hx with hv
    obtain ⟨⟨t, o, s⟩, hrun, hx⟩ := Option.bind_eq_some_iff.1 hx
    exact ih hx (ha.request hv (run_sound hrun))

/-- A client writes a file, another one creates a second file, for whose contents
    there is no room, and stores them with the operation `op`. -/
def crowding (op : Operation) : List (Request × List Env) := [
  (⟨1, .OP_OPEN_FILE, str "/a", O_CREATE ||| O_LOCK, 0⟩, .replicate 20 ⟨true, [], 0, NULL⟩),
  (⟨1, .OP_WRITE_FILE, str "/a", 0, 5⟩, .replicate 20 ⟨true, [1, 2, 3, 4, 5], 0, NULL⟩),
  (⟨2, .OP_OPEN_FILE, str "/b", O_CREATE ||| O_LOCK, 0⟩, .replicate 20 ⟨true, [], 0, NULL⟩),
  (⟨2, op, str "/b", 0, 4⟩, .replicate 20 ⟨true, [6, 7, 8, 9], 0, NULL⟩)]

/-- A write expels the first file. -/
theorem replacementsAgree_crowding : ∃ h, Answered ⟨8, 4⟩ h ∧ (h.map Round.expelledFiles).sum = 1 ∧
    ((∀ h', h' <:+ h → ReplacementsAgree h') ↔ Counted ⟨8, 4⟩ h) := by
  obtain ⟨h, hx, hsum⟩ : ∃ h ∈ answer ⟨8, 4⟩ (crowding .OP_WRITE_FILE) [],
      (h.map Round.expelledFiles).sum = 1 := by decide +kernel
  have ha : Answered ⟨8, 4⟩ h := answer_answered _ hx .nil
  exact ⟨h, ha, hsum, replacementsAgree_iff ha⟩

/-- An append expels the first file: one file has been removed, and one record
    names it, but the counter is `0`. -/
theorem not_replacementsAgree_crowding : ∃ h, answer ⟨8, 4⟩ (crowding .OP_APPEND_FILE) [] = some h ∧
    Answered ⟨8, 4⟩ h ∧ (h.map Round.expelledFiles).sum = 1 ∧
    replacedRecords (stateAfter h).log = 1 ∧ (stateAfter h).stats.numFileReplacement = 0 ∧
    ¬ ReplacementsAgree h := by
  obtain ⟨h, hx, hsum, hlog, hcount⟩ : ∃ h ∈ answer ⟨8, 4⟩ (crowding .OP_APPEND_FILE) [],
      (h.map Round.expelledFiles).sum = 1 ∧ replacedRecords (stateAfter h).log = 1 ∧
        (stateAfter h).stats.numFileReplacement = 0 := by decide +kernel
  refine ⟨h, hx, answer_answered _ hx .nil, hsum, hlog, hcount, fun hagree => ?_⟩
  have hfiles := hagree.files
  rw [hcount, hsum] at hfiles
  cases hfiles

end FileStorage
