/-
  The settings that `readConfig` finds in a file.

  A line of the form `key:value` gives a setting.  The path settings are
  copied over what is in their array, without terminator; `key` and `value` of
  a line that has no such pieces are those of earlier lines.  `View` is the
  loop on the strings and numbers that the arrays hold (`rounds_view`).

  * `Parsed`: `readConfig` returns with the value of the last line for every
    setting, and no other line changes a setting;
  * `Suits`: the files for which it does (`parsed_iff`).
-/
import FileStorage.ConfigFile
import Mathlib.Data.List.Basic

namespace FileStorage.ConfigFile

open Tokens

/-! ## Strings in arrays -/

variable {n : ℕ} {d : Chars n} {v : CString}

/-- Nothing but zeros after the string. -/
def Chars.Padded (d : Chars n) : Prop := ∀ b ∈ d.bytes.dropWhile (· ≠ 0), b = 0

theorem padded_zeros : (Chars.zeros n).Padded :=
  fun _ hb => List.eq_of_mem_replicate ((List.dropWhile_suffix _).subset hb)

theorem takeWhile_zeros {a z : List Byte} (ha : 0 ∉ a) (hz : ∀ b ∈ z, b = 0) :
    cstr (a ++ z) = a ∧ (a ++ z).dropWhile (· ≠ 0) = z := by
  rw [cstr, takeWhile_of_not_mem ha, dropWhile_of_not_mem ha]
  cases z with
  | nil => simp
  | cons b z =>
    obtain rfl := hz b List.mem_cons_self
    simp

/-- Copying over the start of a string. -/
def overlay (v s : CString) : CString := v ++ s.drop v.length

theorem untilNewline_le (v : CString) : untilNewline v <+: v := List.takeWhile_prefix _

/-- `strncpy` of a string up to its newline. -/
theorem strncpy_padded (hd : d.Padded) (hv : 0 ∉ v) (hn : v.length ≤ n) :
    ∃ d', strncpy d v (untilNewline v).length = some d' ∧ d'.Padded ∧
      cstr d'.bytes = overlay (untilNewline v) (cstr d.bytes) := by
  have hpre := (untilNewline_le v).length_le
  have hcopy : (v ++ calloc ((untilNewline v).length - v.length)).take (untilNewline v).length =
      untilNewline v := by
    rw [List.take_append_of_le_length hpre]
    exact (List.prefix_iff_eq_take.1 (untilNewline_le v)).symm
  -- the string is copied, then the rest of the old string, then zeros
  have hblock : memcpy d.bytes 0 (untilNewline v) = overlay (untilNewline v) (cstr d.bytes) ++
      (d.bytes.dropWhile (· ≠ 0)).drop ((untilNewline v).length - (cstr d.bytes).length) := by
    have hsplit : d.bytes = cstr d.bytes ++ d.bytes.dropWhile (· ≠ 0) :=
      (List.takeWhile_append_dropWhile ..).symm
    have htake : (untilNewline v).take d.bytes.length = untilNewline v :=
      List.take_of_length_le (by rw [d.length_bytes]; exact hpre.trans hn)
    rw [memcpy, List.take_zero, List.nil_append, Nat.sub_zero, htake, Nat.zero_add, overlay, List.append_assoc,
      ← List.drop_append, ← hsplit]
  have hzero : 0 ∉ overlay (untilNewline v) (cstr d.bytes) := by
    intro h
    rcases List.mem_append.1 h with h | h
    · exact hv ((untilNewline_le v).subset h)
    · simpa using List.mem_takeWhile_imp (List.mem_of_mem_drop h)
  have hrest : ∀ b ∈ (d.bytes.dropWhile (· ≠ 0)).drop ((untilNewline v).length - (cstr d.bytes).length),
      b = 0 :=
    fun b hb => hd b (List.mem_of_mem_drop hb)
  obtain ⟨hstr, hpad⟩ := takeWhile_zeros hzero hrest
  refine ⟨_, if_pos (hpre.trans hn), ?_, ?_⟩
  · rw [Chars.Padded]
    simp only [hcopy, hblock, hpad]
    exact hrest
  · simp only [hcopy, hblock, hstr]

/-! ## The settings -/

/-- What the arrays and numbers of a `Config` hold. -/
@[ext] structure Settings where
  path : PathSetting → CString
  number : NumberSetting → ℤ

def Settings.zero : Settings := ⟨fun _ => [], fun _ => 0⟩

def Config.settings (c : Config) : Settings where
  path
    | .socketPath => cstr c.socketPath.bytes
    | .logFile => cstr c.logFile.bytes
  number
    | .threadWorkers => c.threadWorkers
    | .maxMemSize => c.maxMemSize
    | .maxFile => c.maxFile

/-- An assignment of a value, with or without its newline. -/
def Settings.put (σ : Settings) (v : CString) : Setting → Settings
  | .path p => { σ with path := Function.update σ.path p (overlay (untilNewline v) (σ.path p)) }
  | .number m => { σ with number := Function.update σ.number m (u32 (strtol v)) }

def Config.Padded (c : Config) : Prop := c.socketPath.Padded ∧ c.logFile.Padded

theorem settings_zero : Config.zero.settings = .zero := by
  refine Settings.ext (funext fun p => ?_) (funext fun m => ?_)
  · cases p <;> decide
  · cases m <;> rfl

theorem put_settings {c : Config} {x : Setting} (hc : c.Padded) (hv : 0 ∉ v) (hn : v.length < 50) :
    ∃ c', c.put v x = some c' ∧ c'.Padded ∧ c'.settings = c.settings.put v x := by
  rcases x with (_ | _) | m
  · obtain ⟨b, hb, hpad, hstr⟩ := strncpy_padded hc.1 hv (by omega)
    refine ⟨_, Option.map_eq_some_iff.2 ⟨b, hb, rfl⟩, ⟨hpad, hc.2⟩, ?_⟩
    refine Settings.ext (funext fun p => ?_) rfl
    cases p
    · exact hstr
    · rfl
  · obtain ⟨b, hb, hpad, hstr⟩ := strncpy_padded hc.2 hv (by omega)
    refine ⟨_, Option.map_eq_some_iff.2 ⟨b, hb, rfl⟩, ⟨hc.1, hpad⟩, ?_⟩
    refine Settings.ext (funext fun p => ?_) rfl
    cases p
    · rfl
    · exact hstr
  · cases m <;> refine ⟨_, rfl, hc, Settings.ext rfl (funext fun m => ?_)⟩ <;> cases m <;> rfl

/-! ## The loop on the settings -/

/-- The frame, without the buffer. -/
structure View where
  key : Option CString
  value : Option CString
  settings : Settings

def Frame.view (s : Frame) : View := ⟨s.key, s.value, s.serverConfig.settings⟩

/-- The pieces of a line, as `strtok` finds them in the buffer. -/
def Line.pieces (r : Line) : List CString := tokens 58 (cstr r.bytes)

/-- The assignment of a round. -/
def Settings.assign (σ : Settings) (key value : Option CString) : Option Settings :=
  key.bind fun key => (named key).elim (some σ) fun x => value.map fun v => σ.put v x

/-- A round on a line. -/
def View.round (w : View) (r : Line) : Option View :=
  if ∀ t ∈ r.pieces.take 2, t.length < 50 then
    (w.settings.assign (r.pieces[0]?.or w.key) (r.pieces[1]?.or w.value)).map fun σ =>
      ⟨r.pieces[0]?.or w.key, r.pieces[1]?.or w.value, σ⟩
  else none

/-- What the rounds keep: the arrays are padded with zeros, and `value` is a
    string that fits. -/
structure Frame.Good (s : Frame) : Prop where
  padded : s.serverConfig.Padded
  value : ∀ v ∈ s.value, 0 ∉ v ∧ v.length < 50

theorem good_start : (Frame.start .zero).Good :=
  ⟨⟨padded_zeros, padded_zeros⟩, fun _ hv => by cases hv⟩

variable {s s' : Frame} {w : View} {r : Line} {rs : List Line} {σ : Settings}

theorem pieces_noZero {t : CString} (ht : t ∈ r.pieces) : 0 ∉ t := by
  intro h
  simpa using List.mem_takeWhile_imp ((infix_of_mem_tokens ht).subset h)

theorem assign_settings (key : Option CString) {value : Option CString} {c : Config} (hc : c.Padded)
    (hv : ∀ v ∈ value, 0 ∉ v ∧ v.length < 50) :
    (assign key value c).map Config.settings = c.settings.assign key value ∧
      ∀ c', assign key value c = some c' → c'.Padded := by
  rw [assign_eq, Settings.assign]
  cases key with
  | none => exact ⟨rfl, fun _ h => by cases h⟩
  | some key =>
    simp only [Option.bind_some]
    cases named key with
    | none =>
      refine ⟨rfl, ?_⟩
      rintro _ ⟨⟩
      exact hc
    | some x =>
      cases value with
      | none => exact ⟨rfl, fun _ h => by cases h⟩
      | some v =>
        obtain ⟨c', hput, hpad, hset⟩ := put_settings (x := x) hc (hv v rfl).1 (hv v rfl).2
        simp only [Option.elim_some, Option.bind_some, Option.map_some, hput, hset, true_and]
        rintro _ ⟨⟩
        exact hpad

theorem round_view (h : s.Good) :
    (round { s with buf := some (cstr r.bytes) }).map Frame.view = s.view.round r ∧
      ∀ s', round { s with buf := some (cstr r.bytes) } = some s' → s'.Good := by
  have hpieces : tokens 58 (cstr r.bytes) = r.pieces := rfl
  rw [round, Option.bind_some, takeTokens_eq, hpieces, View.round]
  split_ifs with hshort
  · have hvalue : ∀ v ∈ r.pieces[1]?.or s.value, 0 ∉ v ∧ v.length < 50 := by
      intro v hv
      rcases Option.or_eq_some_iff.1 hv with hv | ⟨-, hv⟩
      · have htake : v ∈ r.pieces.take 2 := by
          rw [← List.getElem?_take_of_lt (Nat.one_lt_two)] at hv
          exact List.mem_of_getElem? hv
        exact ⟨pieces_noZero (List.mem_of_mem_take htake), hshort v htake⟩
      · exact h.value v hv
    obtain ⟨hset, hpad⟩ := assign_settings (r.pieces[0]?.or s.key) h.padded hvalue
    simp only [Option.bind_some]
    constructor
    · have hview : s.view = ⟨s.key, s.value, s.serverConfig.settings⟩ := rfl
      rw [Option.map_map, hview, ← hset, Option.map_map]
      rfl
    · intro s' h'
      obtain ⟨c', hc', rfl⟩ := Option.map_eq_some_iff.1 h'
      exact ⟨hpad c' hc', hvalue⟩
  · exact ⟨rfl, fun _ h => by cases h⟩

/-- The rounds on lines. -/
def View.rounds (w : View) (rs : List Line) : Option View := rs.foldlM View.round w

theorem View.rounds_append (rs rs' : List Line) :
    w.rounds (rs ++ rs') = (w.rounds rs).bind fun w => w.rounds rs' :=
  List.foldlM_append

theorem View.rounds_cons (r : Line) (rs : List Line) :
    w.rounds (r :: rs) = (w.round r).bind fun w => w.rounds rs :=
  List.foldlM_cons

/-- **The loop of the program is the loop on the settings.** -/
theorem rounds_view (h : s.Good) : (rounds s rs).map Frame.view = s.view.rounds rs := by
  induction rs generalizing s with
  | nil => rfl
  | cons r rs ih =>
    obtain ⟨hround, hgood⟩ := round_view (r := r) h
    rw [rounds_cons, View.rounds_cons, ← hround]
    cases hr : round { s with buf := some (cstr r.bytes) } with
    | none => rfl
    | some s' => exact ih (hgood s' hr)

/-! ## The form of a line -/

/-- A value shorter than its field in `Config`. -/
def Setting.fits : Setting → CString → Bool
  | .path .socketPath, v => v.length < 100
  | .path .logFile, v => v.length < 255
  | .number _, _ => true

/-- The setting and the value of a line of the form `key:value`. -/
def setting (ℓ : List Byte) : Option (Setting × CString) :=
  match ℓ.splitOn 58 with
  | [key, value] => (named key).bind fun x => if 0 ∉ value ∧ x.fits value then some (x, value) else none
  | _ => none

/-- The value that a line has for a setting. -/
def Line.valueFor (r : Line) (x : Setting) : Option CString :=
  (setting r.text).bind fun e => if e.1 = x then some e.2 else none

/-- The values that the lines of a file have for a setting. -/
def values (rs : List Line) (x : Setting) : List CString := rs.filterMap (·.valueFor x)

/-- The settings of a file: the value of the last line for each. -/
def TextFile.settings (f : TextFile) : Settings where
  path p := (values f.rows (.path p)).getLastD []
  number m := (values f.rows (.number m)).getLast?.elim 0 fun v => u32 (strtol v)

/-- `readConfig` returns with the settings of the file, and a round on a line
    that is not of the form `key:value` changes no setting. -/
def TextFile.Parsed (f : TextFile) : Prop :=
  (∃ c, readConfig (some f.bytes) .zero = .returned 0 c ∧ c.settings = f.settings) ∧
    ∀ pre r post, f.rows = pre ++ r :: post → setting r.text = none →
      (rounds (.start .zero) (pre ++ [r])).map (·.serverConfig.settings) =
        (rounds (.start .zero) pre).map (·.serverConfig.settings)

/-! ## The files that are read -/

/-- The settings already have the value `v` for `x`, up to its newline. -/
def Settings.Has (σ : Settings) (v : CString) : Setting → Prop
  | .path p => untilNewline v <+: σ.path p
  | .number m => u32 (strtol v) = σ.number m

/-- The settings after a line. -/
def Settings.next (σ : Settings) (r : Line) : Settings :=
  (setting r.text).elim σ fun e => σ.put e.2 e.1

/-- The pieces that a line leaves in `key` and `value`, and the settings after
    it. -/
def View.next (w : View) (r : Line) : View :=
  ⟨r.pieces[0]?.or w.key, r.pieces[1]?.or w.value, w.settings.next r⟩

/-- A line of the form `key:value` that has a piece for its value: `key:`
    without newline has none. -/
def Line.GivesValue (r : Line) : Prop := ∃ x v, setting r.text = some (x, v) ∧ (r.ended ∨ v ≠ [])

/-- The pieces of a line fit into `key` and `value`; there is a key; and if it
    names a setting that the line gives no value, there is a value and the
    setting has it. -/
def View.Takes (w : View) (r : Line) : Prop :=
  (∀ t ∈ r.pieces.take 2, t.length < 50) ∧
    ∃ key, (w.next r).key = some key ∧
      (¬ r.GivesValue → ∀ x, named key = some x →
        ∃ v, (w.next r).value = some v ∧ (w.next r).settings.Has v x)

def View.TakesAll (w : View) : List Line → Prop
  | [] => True
  | r :: rs => w.Takes r ∧ (w.next r).TakesAll rs

def View.start : View := ⟨none, none, .zero⟩

/-- The files that are read as they should be: not empty, every line is taken,
    and the last value of a path is not shorter than an earlier one. -/
def TextFile.Suits (f : TextFile) : Prop :=
  f.rows ≠ [] ∧ View.start.TakesAll f.rows ∧
    ∀ p, ∀ v ∈ values f.rows (.path p), v.length ≤ (f.settings.path p).length

/-! ## A line of the form -/

variable {x : Setting} {ℓ : List Byte}

theorem name_bytes (x : Setting) : x.name ≠ [] ∧ 58 ∉ x.name ∧ 0 ∉ x.name := by
  rcases x with (_ | _) | (_ | _ | _) <;> decide

theorem setting_eq_some : setting ℓ = some (x, v) ↔
    ℓ = x.name ++ 58 :: v ∧ 58 ∉ v ∧ 0 ∉ v ∧ x.fits v := by
  constructor
  · intro h
    unfold setting at h
    split at h
    · next key value hℓ =>
      obtain ⟨y, hy, hif⟩ := Option.bind_eq_some_iff.1 h
      obtain ⟨⟨hzero, hfits⟩, heq⟩ := Option.ite_none_right_eq_some.1 hif
      cases heq
      have hjoin : [58].intercalate (ℓ.splitOn 58) = ℓ := List.intercalate_splitOn 58
      rw [hℓ, List.intercalate_cons_cons, List.intercalate_singleton, List.append_assoc] at hjoin
      rw [← named_eq_some.1 hy]
      exact ⟨hjoin.symm, not_mem_splitOn (hℓ ▸ List.mem_cons_of_mem _ List.mem_cons_self), hzero, hfits⟩
    · cases h
  · rintro ⟨rfl, hsep, hzero, hfits⟩
    rw [setting, List.splitOn_append_cons_self_of_not_mem (name_bytes x).2.1, List.splitOn_eq_singleton hsep]
    simp only [named_eq_some.2 rfl, Option.bind_some]
    exact if_pos ⟨hzero, hfits⟩

def Line.newline (r : Line) : CString := if r.ended then [10] else []

theorem mem_newline {b : Byte} (hb : b ∈ r.newline) : b = 10 := by
  unfold Line.newline at hb
  split_ifs at hb
  · exact List.mem_singleton.1 hb
  · exact absurd hb List.not_mem_nil

/-- The pieces of a line of the form. -/
theorem pieces_setting (h : setting r.text = some (x, v)) :
    r.pieces = x.name :: tokens 58 (v ++ r.newline) := by
  obtain ⟨htext, hsep, hzero, -⟩ := setting_eq_some.1 h
  obtain ⟨hne, hsep', hzero'⟩ := name_bytes x
  have hbytes : r.bytes = x.name ++ 58 :: (v ++ r.newline) := by
    rw [Line.bytes, htext, List.append_assoc]
    rfl
  have hno : 0 ∉ r.bytes := by
    intro hb
    rw [hbytes] at hb
    rcases List.mem_append.1 hb with hb | hb
    · exact hzero' hb
    · rcases List.mem_cons.1 hb with hb | hb
      · exact absurd hb (by decide)
      · rcases List.mem_append.1 hb with hb | hb
        · exact hzero hb
        · exact absurd (mem_newline hb) (by decide)
  rw [Line.pieces, cstr, takeWhile_self hno, hbytes, tokens_append hsep' hne]

theorem pieces_givesValue (h : setting r.text = some (x, v)) (hv : r.ended ∨ v ≠ []) :
    r.pieces = [x.name, v ++ r.newline] := by
  have hsep : 58 ∉ v ++ r.newline := by
    intro hb
    rcases List.mem_append.1 hb with hb | hb
    · exact (setting_eq_some.1 h).2.1 hb
    · exact absurd (mem_newline hb) (by decide)
  have hne : v ++ r.newline ≠ [] := by
    rcases hv with hv | hv
    · rw [Line.newline, if_pos hv]
      exact List.append_ne_nil_of_right_ne_nil _ (List.cons_ne_nil _ _)
    · exact List.append_ne_nil_of_left_ne_nil hv _
  rw [pieces_setting h, tokens_self hsep hne]

theorem pieces_bare (h : setting r.text = some (x, v)) (hv : ¬ (r.ended ∨ v ≠ [])) :
    r.pieces = [x.name] ∧ v = [] := by
  rw [not_or, not_not] at hv
  obtain ⟨hended, rfl⟩ := hv
  rw [pieces_setting h, Line.newline, if_neg hended, List.nil_append, tokens_nil]
  exact ⟨rfl, rfl⟩

theorem digits_newline : digits (v ++ [10]) = digits v := by
  have htake : (v ++ [10]).takeWhile isdigit = v.takeWhile isdigit := by
    induction v with
    | nil => rfl
    | cons b v ih =>
      rw [List.cons_append, List.takeWhile_cons, List.takeWhile_cons, ih]
  rw [digits, htake]
  rfl

theorem strtol_newline : strtol (v ++ [10]) = strtol v := by
  have hdrop : (v ++ [10]).dropWhile isspace =
      if v.dropWhile isspace = [] then [] else v.dropWhile isspace ++ [10] := by
    rw [List.dropWhile_append]
    simp only [List.isEmpty_iff]
    rfl
  rw [strtol, hdrop, strtol]
  cases v.dropWhile isspace with
  | nil => rfl
  | cons b rest =>
    rw [if_neg (List.cons_ne_nil _ _), List.cons_append]
    simp only [digits_newline, ← List.cons_append]

theorem untilNewline_newline : untilNewline (v ++ [10]) = untilNewline v := by
  induction v with
  | nil => rfl
  | cons b v ih =>
    simp only [untilNewline] at ih ⊢
    rw [List.cons_append, List.takeWhile_cons, List.takeWhile_cons, ih]

theorem put_newline : σ.put (v ++ r.newline) x = σ.put v x := by
  unfold Line.newline
  split_ifs
  · cases x with
    | path p => rw [Settings.put, untilNewline_newline]; rfl
    | number m => rw [Settings.put, strtol_newline]; rfl
  · rw [List.append_nil]

/-! ## What a line does -/

theorem overlay_eq_self_iff {u : CString} : overlay v u = u ↔ v <+: u := by
  constructor
  · intro h
    exact ⟨_, h⟩
  · rintro ⟨t, rfl⟩
    rw [overlay, List.drop_left]

theorem put_eq_self_iff : σ.put v x = σ ↔ σ.Has v x := by
  cases x with
  | path p =>
    rw [Settings.put, Settings.mk.injEq, Function.update_eq_self_iff, overlay_eq_self_iff]
    exact and_iff_left rfl
  | number m =>
    rw [Settings.put, Settings.mk.injEq, Function.update_eq_self_iff]
    exact and_iff_right rfl

/-- An assignment is that of the empty value. -/
theorem put_eq_nil_iff : σ.put v x = σ.put [] x ↔ (σ.put [] x).Has v x := by
  cases x with
  | path p =>
    have hnil : σ.put [] (.path p) = σ := put_eq_self_iff.2 List.nil_prefix
    rw [hnil, put_eq_self_iff]
  | number m =>
    simp only [Settings.put, Settings.Has, Settings.mk.injEq, true_and, Function.update_self]
    exact (Function.update_injective _ _).eq_iff

theorem next_settings : (w.next r).settings = w.settings.next r := rfl

theorem next_none (h : setting r.text = none) : σ.next r = σ := by
  rw [Settings.next, h]
  rfl

theorem next_some (h : setting r.text = some (x, v)) : σ.next r = σ.put v x := by
  rw [Settings.next, h]
  rfl

theorem assign_eq_some {key value : Option CString} {τ : Settings} : σ.assign key value = some τ ↔
    ∃ k, key = some k ∧ (named k = none → σ = τ) ∧
      ∀ x, named k = some x → ∃ v, value = some v ∧ σ.put v x = τ := by
  rw [Settings.assign, Option.bind_eq_some_iff]
  refine exists_congr fun k => and_congr_right fun _ => ?_
  cases named k with
  | none => simp
  | some x => simp

/-- A round leaves the pieces of the line. -/
theorem round_eq_iff {w' : View} : w.round r = some w' ↔
    (∀ t ∈ r.pieces.take 2, t.length < 50) ∧
      w.settings.assign (w.next r).key (w.next r).value = some w'.settings ∧
      w'.key = (w.next r).key ∧ w'.value = (w.next r).value := by
  rw [View.round]
  split_ifs with hshort
  · rw [Option.map_eq_some_iff]
    constructor
    · rintro ⟨τ, hτ, rfl⟩
      exact ⟨hshort, hτ, rfl, rfl⟩
    · rintro ⟨-, hτ, hkey, hvalue⟩
      refine ⟨_, hτ, ?_⟩
      cases w'
      cases hkey
      cases hvalue
      rfl
  · constructor
    · intro h
      cases h
    · intro h
      exact absurd h.1 hshort

/-- The key after a line of the form is its own. -/
theorem next_key (hset : setting r.text = some (x, v)) : (w.next r).key = some x.name := by
  rw [View.next, pieces_setting hset]
  rfl

/-- What a round puts into the setting of the line or of the key before. -/
theorem put_eq_next_iff {y : Setting} {k : CString} (hr : ¬ r.GivesValue) (hk : (w.next r).key = some k)
    (hy : named k = some y) :
    w.settings.put v y = w.settings.next r ↔ (w.settings.next r).Has v y := by
  cases hset : setting r.text with
  | none =>
    rw [next_none hset]
    exact put_eq_self_iff
  | some e =>
    obtain ⟨x, u⟩ := e
    obtain ⟨hpieces, rfl⟩ := pieces_bare hset fun h => hr ⟨x, u, hset, h⟩
    have hxy : x = y := by
      rw [next_key hset, Option.some.injEq] at hk
      rw [← hk, named_eq_some.2 rfl] at hy
      exact Option.some.inj hy
    rw [next_some hset, hxy]
    exact put_eq_nil_iff

/-- **A line is taken** if and only if the round on it does what it says. -/
theorem takes_iff : w.Takes r ↔ w.round r = some (w.next r) := by
  rw [round_eq_iff, View.Takes, assign_eq_some]
  refine and_congr_right fun hshort => ?_
  rw [and_iff_left ⟨rfl, rfl⟩]
  refine exists_congr fun k => and_congr_right fun hk => ?_
  by_cases hr : r.GivesValue
  · -- both sides hold: the value is the second piece
    refine iff_of_true (fun h => absurd hr h) ?_
    obtain ⟨x, u, hset, hu⟩ := hr
    rw [next_key hset, Option.some.injEq] at hk
    rw [← hk, named_eq_some.2 rfl]
    refine ⟨fun h => absurd h (Option.some_ne_none _), ?_⟩
    rintro y ⟨⟩
    refine ⟨u ++ r.newline, ?_, ?_⟩
    · rw [View.next, pieces_givesValue hset hu]
      rfl
    · rw [put_newline, View.next, next_some hset]
  · have hnone : named k = none → w.settings = w.settings.next r := by
      intro h
      cases hset : setting r.text with
      | none => exact (next_none hset).symm
      | some e =>
        rw [next_key (x := e.1) (v := e.2) hset, Option.some.injEq] at hk
        rw [← hk, named_eq_some.2 rfl] at h
        cases h
    rw [forall_prop_of_true hr]
    constructor
    · intro h
      refine ⟨hnone, fun y hy => ?_⟩
      obtain ⟨v, hv, hhas⟩ := h y hy
      exact ⟨v, hv, (put_eq_next_iff hr hk hy).2 hhas⟩
    · intro h y hy
      obtain ⟨v, hv, hput⟩ := h.2 y hy
      exact ⟨v, hv, (put_eq_next_iff hr hk hy).1 hput⟩

/-! ## The whole file -/

theorem takesAll_append {rs rs' : List Line} :
    w.TakesAll (rs ++ rs') ↔ w.TakesAll rs ∧ (rs.foldl View.next w).TakesAll rs' := by
  induction rs generalizing w with
  | nil => exact (and_iff_right trivial).symm
  | cons r rs ih =>
    rw [List.cons_append, View.TakesAll, View.TakesAll, ih, List.foldl_cons, and_assoc]

/-- Lines that are taken are read one after the other. -/
theorem rounds_takesAll (h : w.TakesAll rs) : w.rounds rs = some (rs.foldl View.next w) := by
  induction rs generalizing w with
  | nil => rfl
  | cons r rs ih =>
    rw [View.rounds_cons, takes_iff.1 h.1, Option.bind_some, ih h.2, List.foldl_cons]

theorem takes_givesValue (hr : r.GivesValue) (hshort : ∀ t ∈ r.pieces.take 2, t.length < 50) : w.Takes r := by
  refine ⟨hshort, ?_⟩
  have hr' := hr
  obtain ⟨x, v, hset, -⟩ := hr'
  exact ⟨x.name, next_key hset, fun h => absurd hr h⟩

/-- If every round on a line that gives no value leaves the settings as the
    line says, all lines are taken. -/
theorem takesAll_of_rounds {w' : View} (hrun : w.rounds rs = some w')
    (hidle : ∀ pre r post, rs = pre ++ r :: post → ∀ u u', w.rounds pre = some u → u.round r = some u' →
      ¬ r.GivesValue → u'.settings = u.settings.next r) : w.TakesAll rs := by
  induction rs generalizing w with
  | nil => trivial
  | cons r rs ih =>
    obtain ⟨u, hu, hrest⟩ := Option.bind_eq_some_iff.1 ((View.rounds_cons r rs).symm.trans hrun)
    have hnext : u = w.next r := by
      obtain ⟨hshort, -, hkey, hvalue⟩ := round_eq_iff.1 hu
      by_cases hr : r.GivesValue
      · exact Option.some.inj (hu.symm.trans (takes_iff.1 (takes_givesValue hr hshort)))
      · have hset := hidle [] r rs rfl w u rfl hu hr
        cases u
        cases hkey
        cases hvalue
        cases hset
        rfl
    subst hnext
    refine ⟨takes_iff.2 hu, ih hrest ?_⟩
    intro pre r' post hrs u u' hpre
    refine hidle (r :: pre) r' post (by rw [hrs]; rfl) u u' ?_
    rw [View.rounds_cons, hu]
    exact hpre

/-! ## The last values -/

theorem length_overlay (v u : CString) : (overlay v u).length = max v.length u.length := by
  rw [overlay, List.length_append, List.length_drop]
  omega

theorem length_foldl_overlay {vs : List CString} {u : CString} {N : ℕ} :
    (vs.foldl (fun s v => overlay v s) u).length ≤ N ↔ u.length ≤ N ∧ ∀ v ∈ vs, v.length ≤ N := by
  induction vs generalizing u with
  | nil => simp
  | cons v vs ih =>
    rw [List.foldl_cons, ih, length_overlay, List.forall_mem_cons, max_le_iff]
    constructor
    · rintro ⟨⟨hv, hu⟩, hvs⟩
      exact ⟨hu, hv, hvs⟩
    · rintro ⟨hu, hv, hvs⟩
      exact ⟨⟨hv, hu⟩, hvs⟩

/-- **Strings copied over each other** leave the last one if and only if no
    earlier one is longer. -/
theorem foldl_overlay_iff {vs : List CString} : vs.foldl (fun s v => overlay v s) [] = vs.getLastD [] ↔
    ∀ v ∈ vs, v.length ≤ (vs.getLastD []).length := by
  rcases List.eq_nil_or_concat' vs with rfl | ⟨us, u, rfl⟩
  · simp
  · have hlast : (us ++ [u]).getLastD [] = u := by simp
    have hfit : overlay u (us.foldl (fun s v => overlay v s) []) = u ↔
        (us.foldl (fun s v => overlay v s) []).length ≤ u.length := by
      rw [overlay, List.append_right_eq_self, List.drop_eq_nil_iff]
    rw [hlast, List.foldl_append, List.foldl_cons, List.foldl_nil, hfit, length_foldl_overlay,
      List.length_nil, and_iff_right (Nat.zero_le _), List.forall_mem_append, List.forall_mem_singleton,
      and_iff_left le_rfl]

/-- What a line does to a path. -/
theorem next_path (hr : 10 ∉ r.text) (p : PathSetting) : (σ.next r).path p =
    (r.valueFor (.path p)).elim (σ.path p) fun v => overlay v (σ.path p) := by
  cases hset : setting r.text with
  | none =>
    rw [next_none hset, Line.valueFor, hset]
    rfl
  | some e =>
    obtain ⟨y, v⟩ := e
    rw [next_some hset, Line.valueFor, hset, Option.bind_some]
    cases y with
    | path q =>
      by_cases hq : q = p
      · subst hq
        have hv : untilNewline v = v := by
          refine takeWhile_self fun hb => hr ?_
          rw [(setting_eq_some.1 hset).1]
          exact List.mem_append_right _ (List.mem_cons_of_mem _ hb)
        rw [if_pos rfl, Option.elim_some, Settings.put, hv]
        exact Function.update_self _ _ _
      · rw [if_neg (by simpa using hq), Settings.put]
        exact Function.update_of_ne (Ne.symm hq) _ _
    | number m =>
      rw [if_neg (by simp)]
      rfl

/-- What a line does to a number. -/
theorem next_number (m : NumberSetting) : (σ.next r).number m =
    (r.valueFor (.number m)).elim (σ.number m) fun v => u32 (strtol v) := by
  cases hset : setting r.text with
  | none =>
    rw [next_none hset, Line.valueFor, hset]
    rfl
  | some e =>
    obtain ⟨y, v⟩ := e
    rw [next_some hset, Line.valueFor, hset, Option.bind_some]
    cases y with
    | path q =>
      rw [if_neg (by simp)]
      rfl
    | number k =>
      by_cases hk : k = m
      · subst hk
        rw [if_pos rfl, Option.elim_some, Settings.put]
        exact Function.update_self _ _ _
      · rw [if_neg (by simpa using hk), Settings.put]
        exact Function.update_of_ne (Ne.symm hk) _ _

/-- The settings after lines that are taken. -/
theorem foldl_path (hrs : ∀ r ∈ rs, 10 ∉ r.text) (p : PathSetting) :
    (rs.foldl View.next w).settings.path p =
      (values rs (.path p)).foldl (fun s v => overlay v s) (w.settings.path p) := by
  induction rs generalizing w with
  | nil => rfl
  | cons r rs ih =>
    obtain ⟨hr, hrs⟩ := List.forall_mem_cons.1 hrs
    rw [List.foldl_cons, ih hrs, next_settings, next_path hr, values, values, List.filterMap_cons]
    cases r.valueFor (.path p) <;> rfl

theorem foldl_number (m : NumberSetting) : (rs.foldl View.next w).settings.number m =
    (values rs (.number m)).getLast?.elim (w.settings.number m) fun v => u32 (strtol v) := by
  induction rs generalizing w with
  | nil => rfl
  | cons r rs ih =>
    rw [List.foldl_cons, ih, next_settings, next_number, values, values, List.filterMap_cons]
    cases r.valueFor (.number m) with
    | none => rfl
    | some v =>
      rw [List.getLast?_cons]
      cases (rs.filterMap (·.valueFor (.number m))).getLast? <;> rfl

theorem rows_noNewline {f : TextFile} : ∀ r ∈ f.rows, 10 ∉ r.text := by
  intro r hr
  rcases List.mem_append.1 hr with hr | hr
  · obtain ⟨ℓ, hℓ, rfl⟩ := List.mem_map.1 hr
    exact f.lines_noNewline ℓ hℓ
  · split_ifs at hr
    · exact absurd hr List.not_mem_nil
    · rw [List.mem_singleton.1 hr]
      exact f.last_noNewline

/-- **The settings of the file** are those of its lines, one after the other, if
    and only if no path is shorter than an earlier one. -/
theorem foldl_settings_iff {f : TextFile} : (f.rows.foldl View.next .start).settings = f.settings ↔
    ∀ p, ∀ v ∈ values f.rows (.path p), v.length ≤ (f.settings.path p).length := by
  have hnumber : (f.rows.foldl View.next .start).settings.number = f.settings.number :=
    funext fun m => foldl_number m
  rw [Settings.ext_iff, and_iff_left hnumber, funext_iff]
  refine forall_congr' fun p => ?_
  rw [foldl_path rows_noNewline]
  exact foldl_overlay_iff

/-! ## The files that are read -/

variable {f : TextFile}

/-- `readConfig` on the settings. -/
theorem returns_iff {σ : Settings} :
    (∃ c, readConfig (some f.bytes) .zero = .returned 0 c ∧ c.settings = σ) ↔
      f.rows ≠ [] ∧ (View.start.rounds f.rows).map (·.settings) = some σ := by
  by_cases hf : f.rows = []
  · rw [readConfig_nil hf]
    refine iff_of_false ?_ fun h => h.1 hf
    rintro ⟨c, ⟨⟩, -⟩
  · have hstart : (Frame.start .zero).view = View.start := congrArg (View.mk none none) settings_zero
    rw [readConfig_bytes hf, and_iff_right hf, ← hstart, ← rounds_view good_start, Option.map_map]
    cases rounds (.start .zero) f.rows with
    | none =>
      refine iff_of_false ?_ (Option.some_ne_none _).symm
      rintro ⟨c, ⟨⟩, -⟩
    | some s =>
      rw [Option.map_some, Option.some.injEq]
      constructor
      · rintro ⟨c, ⟨⟩, hc⟩
        exact hc
      · intro hs
        exact ⟨s.serverConfig, rfl, hs⟩

/-- Only the last line can lack a newline. -/
theorem ended_of_ne_last {pre post : List Line} (h : f.rows = pre ++ r :: post) (hpost : post ≠ []) :
    r.ended = true := by
  have hmem : r ∈ f.rows.dropLast := by
    rw [h, List.dropLast_append_of_ne_nil (List.cons_ne_nil _ _), List.dropLast_cons_of_ne_nil hpost]
    exact List.mem_append_right _ List.mem_cons_self
  have hlines : r ∈ f.lines.map (⟨·, true⟩) := by
    rw [TextFile.rows, linesOf] at hmem
    split_ifs at hmem
    · rw [List.append_nil] at hmem
      exact List.mem_of_mem_dropLast hmem
    · rwa [List.dropLast_append_of_ne_nil (List.cons_ne_nil _ _), List.dropLast_singleton,
        List.append_nil] at hmem
  obtain ⟨ℓ, -, rfl⟩ := List.mem_map.1 hlines
  rfl

theorem values_last (pre : List Line) (hset : setting r.text = some (x, v)) :
    (values (pre ++ [r]) x).getLast? = some v := by
  have hvalue : r.valueFor x = some v := by
    rw [Line.valueFor, hset]
    exact if_pos rfl
  rw [values, List.filterMap_append, List.filterMap_cons, hvalue]
  exact List.getLast?_concat

/-- If the last line sets `x` to the empty value, a round that ends with the
    settings of the file is that of the empty value. -/
theorem put_eq_nil {pre : List Line} (hrows : f.rows = pre ++ [r]) (hset : setting r.text = some (x, []))
    (h : σ.put v x = f.settings) : σ.put v x = σ.put [] x := by
  rw [put_eq_nil_iff]
  have hlast := values_last pre hset
  rw [← hrows] at hlast
  cases x with
  | path p =>
    have hpath : overlay (untilNewline v) (σ.path p) = [] := by
      have hp := congrFun (congrArg Settings.path h) p
      rw [Settings.put, TextFile.settings] at hp
      simp only [Function.update_self, List.getLastD_eq_getLast?, hlast, Option.getD_some] at hp
      exact hp
    have hnil : untilNewline v = [] := (List.append_eq_nil_iff.1 hpath).1
    rw [Settings.Has, hnil]
    exact List.nil_prefix
  | number m =>
    have hm := congrFun (congrArg Settings.number h) m
    rw [Settings.put, TextFile.settings] at hm
    simp only [Function.update_self, hlast, Option.elim_some] at hm
    simp only [Settings.Has, Settings.put, Function.update_self]
    exact hm

/-- **`readConfig` reads a file as it should** if and only if no line of
    another shape finds a key with another value than the setting has, no piece
    is too long, and no path is shorter than an earlier one. -/
theorem parsed_iff : f.Parsed ↔ f.Suits := by
  have hstart : (Frame.start .zero).view = View.start := congrArg (View.mk none none) settings_zero
  have hrounds : ∀ rs, (rounds (.start .zero) rs).map (·.serverConfig.settings) =
      (View.start.rounds rs).map (·.settings) := by
    intro rs
    rw [← hstart, ← rounds_view good_start, Option.map_map]
    rfl
  simp only [TextFile.Parsed, TextFile.Suits, returns_iff, hrounds, ← foldl_settings_iff, and_assoc]
  refine and_congr_right fun hf => ?_
  constructor
  · rintro ⟨hrun, hidle⟩
    obtain ⟨w', hw', hset⟩ := Option.map_eq_some_iff.1 hrun
    have hall : View.start.TakesAll f.rows := by
      refine takesAll_of_rounds hw' ?_
      intro pre r post hrs u u' hpre hround hr
      cases hset' : setting r.text with
      | none =>
        have hsame := hidle pre r post hrs hset'
        rw [View.rounds_append, hpre, Option.bind_some, View.rounds_cons, hround] at hsame
        rw [next_none hset']
        exact Option.some.inj hsame
      | some e =>
        -- a last line `key:`, on which the round has put an earlier value
        obtain ⟨x, v⟩ := e
        have hbare : ¬ (r.ended ∨ v ≠ []) := fun h => hr ⟨x, v, hset', h⟩
        obtain ⟨-, rfl⟩ := pieces_bare hset' hbare
        have hpost : post = [] := by
          by_contra hne
          exact hbare (.inl (ended_of_ne_last hrs hne))
        subst hpost
        have hw : w' = u' := by
          rw [hrs, View.rounds_append, hpre, Option.bind_some, View.rounds_cons, hround] at hw'
          exact (Option.some.inj hw').symm
        obtain ⟨k, hk, -, hput⟩ := assign_eq_some.1 (round_eq_iff.1 hround).2.1
        rw [next_key hset', Option.some.injEq] at hk
        obtain ⟨v, -, hv⟩ := hput x (by rw [← hk]; exact named_eq_some.2 rfl)
        rw [← hv, next_some hset']
        exact put_eq_nil hrs hset' (by rw [hv, ← hw, hset])
    rw [rounds_takesAll hall, Option.map_some, Option.some.injEq] at hrun
    exact ⟨hall, hrun⟩
  · rintro ⟨hall, hset⟩
    refine ⟨by rw [rounds_takesAll hall, Option.map_some, hset], ?_⟩
    intro pre r post hrs hnone
    rw [hrs, takesAll_append] at hall
    have hpre : View.start.TakesAll (pre ++ [r]) := takesAll_append.2 ⟨hall.1, hall.2.1, trivial⟩
    rw [rounds_takesAll hall.1, rounds_takesAll hpre, List.foldl_append, Option.map_some, Option.map_some]
    exact congrArg some (next_none hnone)

/-- `config/config.txt`. -/
def configTxt : TextFile where
  lines := [str "socket-path:./connection.sk", str "thread-workers:1", str "max-mem-size:1000000",
    str "max-file:10", str "log-file:./log.txt"]
  last := []
  lines_noNewline := by decide
  last_noNewline := by decide
  lines_short := by decide
  last_short := by decide

theorem parsed_configTxt : configTxt.Parsed := by
  refine parsed_iff.2 ⟨by decide, ?_, ?_⟩
  · exact ⟨takes_givesValue ⟨.path .socketPath, str "./connection.sk", by decide, .inl rfl⟩ (by decide),
      takes_givesValue ⟨.number .threadWorkers, str "1", by decide, .inl rfl⟩ (by decide),
      takes_givesValue ⟨.number .maxMemSize, str "1000000", by decide, .inl rfl⟩ (by decide),
      takes_givesValue ⟨.number .maxFile, str "10", by decide, .inl rfl⟩ (by decide),
      takes_givesValue ⟨.path .logFile, str "./log.txt", by decide, .inl rfl⟩ (by decide), trivial⟩
  · intro p
    cases p <;> decide

/-- A line with a further colon replaces the value of the line before. -/
theorem not_parsed_colon : ¬ TextFile.Parsed ⟨[str "max-file:10", str "max-file:5:x"], [],
    by decide, by decide, by decide, by decide⟩ := by
  rintro ⟨⟨c, hc, hset⟩, -⟩
  have hread : readConfig (some (str "max-file:10\nmax-file:5:x\n")) .zero =
      .returned 0 { Config.zero with maxFile := 5 } := by
    decide
  obtain ⟨-, rfl⟩ := Result.returned.inj (hread.symm.trans hc)
  exact absurd (congrFun (congrArg Settings.number hset) .maxFile) (by decide)

end FileStorage.ConfigFile
