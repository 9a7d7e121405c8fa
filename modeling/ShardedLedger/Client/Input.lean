import ShardedLedger.Client.Main
set_option autoImplicit false

/-!
# Client: what the loop of `main` reads

`fgets` returns a line in pieces when it does not fit `command`, and the loop takes
every piece for a command.  So the commands are the lines that were typed exactly
when all lines are shorter than the buffer and hold no NUL (`commandLoop_typed`).
-/

namespace ShardedLedger.Client

open CString Channel

/-! ## `fgets` -/

/-- What `fgets` puts into an array with room for so many bytes and the NUL. -/
def fgets : Nat → Bytes → Bytes
  | 0, _ => []
  | _ + 1, [] => []
  | room + 1, c :: rest => if c = 10 then [c] else c :: fgets room rest

/-- Bytes without a newline are read as far as there is room. -/
theorem fgets_append {s : Bytes} (hs : (10 : UInt8) ∉ s) (room : Nat) (rest : Bytes) :
    fgets room (s ++ rest) = s.take room ++ fgets (room - s.length) rest := by
  induction s generalizing room with
  | nil => rw [List.take_nil, List.nil_append, List.nil_append, List.length_nil, Nat.sub_zero]
  | cons c s ih =>
      cases room with
      | zero =>
          rw [Nat.zero_sub, fgets, fgets]
          rfl
      | succ room =>
          have hc : c ≠ 10 := fun h => hs (h ▸ List.mem_cons_self)
          have hs' : (10 : UInt8) ∉ s := fun h => hs (List.mem_cons_of_mem _ h)
          rw [List.cons_append, fgets, if_neg hc, ih hs', List.take_succ_cons, List.length_cons,
            Nat.add_sub_add_right]
          rfl

theorem fgets_ne_nil (room : Nat) {input : Bytes} (h : input ≠ []) :
    fgets (room + 1) input ≠ [] := by
  obtain ⟨c, rest, rfl⟩ := List.exists_cons_of_ne_nil h
  rw [fgets]
  split
  · exact List.cons_ne_nil _ _
  · exact List.cons_ne_nil _ _

theorem drop_fgets_lt {input : Bytes} (h : input ≠ []) :
    (input.drop (fgets (maxLine - 1) input).length).length < input.length := by
  have hread : 0 < (fgets (maxLine - 1) input).length :=
    List.length_pos_iff.mpr (fgets_ne_nil 254 h)
  have hinput := List.length_pos_iff.mpr h
  rw [List.length_drop]
  omega

/-- What the calls of `fgets` in the loop read, until one returns `NULL`. -/
def reads (input : Bytes) : List Bytes :=
  if h : input = [] then []
  else fgets (maxLine - 1) input :: reads (input.drop (fgets (maxLine - 1) input).length)
termination_by input.length
decreasing_by exact drop_fgets_lt h

theorem drop_lt {s : Bytes} (h : s ≠ []) : (s.drop (maxLine - 1)).length < s.length := by
  have hs := List.length_pos_iff.mpr h
  rw [List.length_drop]
  exact Nat.sub_lt hs (by decide)

/-- A string in pieces that fit the buffer. -/
def pieces (s : Bytes) : List Bytes :=
  if h : s = [] then [] else s.take (maxLine - 1) :: pieces (s.drop (maxLine - 1))
termination_by s.length
decreasing_by exact drop_lt h

@[simp] theorem pieces_nil : pieces [] = [] := by rw [pieces, dif_pos rfl]

theorem pieces_of_ne_nil {s : Bytes} (h : s ≠ []) :
    pieces s = s.take (maxLine - 1) :: pieces (s.drop (maxLine - 1)) := by
  rw [pieces, dif_neg h]

theorem pieces_of_length_le {s : Bytes} (h : s ≠ []) (hlength : s.length ≤ maxLine - 1) :
    pieces s = [s] := by
  rw [pieces_of_ne_nil h, List.take_of_length_le hlength, List.drop_of_length_le hlength,
    pieces_nil]

/-! ## Lines -/

/-- **A line** is read in pieces, and behind it the reading starts afresh. -/
theorem reads_line {line : Bytes} (hline : (10 : UInt8) ∉ line) (rest : Bytes) :
    reads (line ++ 10 :: rest) = pieces (line ++ [10]) ++ reads rest := by
  induction hn : line.length using Nat.strong_induction_on generalizing line with
  | _ n ih =>
      have hne : line ++ 10 :: rest ≠ [] := by simp
      have hne' : line ++ [10] ≠ [] := by simp
      rw [reads, dif_neg hne, fgets_append hline]
      by_cases hshort : line.length < maxLine - 1
      · obtain ⟨room, hroom⟩ : ∃ room, maxLine - 1 - line.length = room + 1 :=
          ⟨maxLine - 1 - line.length - 1, by omega⟩
        have hread : line.take (maxLine - 1) ++ fgets (maxLine - 1 - line.length) (10 :: rest) =
            line ++ [10] := by
          rw [hroom, fgets, if_pos rfl, List.take_of_length_le (Nat.le_of_lt hshort)]
        have hlength : (line ++ [10]).length ≤ maxLine - 1 := by
          rw [List.length_append, List.length_singleton]
          exact hshort
        have hrest : (line ++ 10 :: rest).drop (line ++ [10]).length = rest := by
          rw [List.append_cons line 10 rest, List.drop_left]
        rw [hread, hrest, pieces_of_length_le hne' hlength]
        rfl
      · have hlong : maxLine - 1 ≤ line.length := Nat.le_of_not_lt hshort
        have hread : line.take (maxLine - 1) ++ fgets (maxLine - 1 - line.length) (10 :: rest) =
            line.take (maxLine - 1) := by
          rw [Nat.sub_eq_zero_of_le hlong, fgets, List.append_nil]
        have hrest : (10 : UInt8) ∉ line.drop (maxLine - 1) :=
          fun h => hline (List.mem_of_mem_drop h)
        have hlt : (line.drop (maxLine - 1)).length < n := by
          rw [List.length_drop, ← hn]
          exact Nat.sub_lt (Nat.lt_of_lt_of_le (by decide) hlong) (by decide)
        rw [hread, List.length_take_of_le hlong, List.drop_append_of_le_length hlong,
          pieces_of_ne_nil hne', List.take_append_of_le_length hlong,
          List.drop_append_of_le_length hlong, ih _ hlt hrest rfl]
        rfl

/-- A line as it is typed, without the newline that ends it. -/
structure TypedLine where
  text : Bytes
  no_newline : (10 : UInt8) ∉ text

/-- The input when these lines are typed. -/
def typed (lines : List TypedLine) : Bytes := lines.flatMap fun line => line.text ++ [10]

theorem reads_typed (lines : List TypedLine) :
    reads (typed lines) = lines.flatMap fun line => pieces (line.text ++ [10]) := by
  induction lines with
  | nil =>
      rw [typed, List.flatMap_nil, reads, dif_pos rfl]
      rfl
  | cons line lines ih =>
      have hinput : typed (line :: lines) = line.text ++ 10 :: typed lines := by
        rw [typed, List.flatMap_cons, List.append_assoc]
        rfl
      rw [hinput, reads_line line.no_newline, ih, List.flatMap_cons]

/-! ## Commands -/

/-- What the loop compares: the string in the buffer, up to its newline. -/
def command (line : Bytes) : Bytes := (cstr line).takeWhile (· ≠ 10)

/-- What the loop compares, one call of `fgets` after the other. -/
def commandsIn (input : Bytes) : List Bytes := (reads input).map command

theorem nul_not_mem_command (line : Bytes) : (0 : UInt8) ∉ command line := fun h =>
  nul_not_mem_cstr line ((List.takeWhile_prefix _).subset h)

theorem newline_not_mem_command (line : Bytes) : (10 : UInt8) ∉ command line := by
  intro h
  have hne := List.mem_takeWhile_imp h
  simp at hne

/-- A line without NUL is cut at its newline. -/
theorem command_append {text rest : Bytes} (hnewline : (10 : UInt8) ∉ text)
    (hnul : (0 : UInt8) ∉ text ++ rest) :
    command (text ++ rest) = text ++ rest.takeWhile (· ≠ 10) := by
  rw [command, cstr_eq_self hnul]
  refine List.takeWhile_append_of_pos fun c hc => ?_
  have hne : c ≠ 10 := fun h => hnewline (h ▸ hc)
  simpa using hne

theorem command_eq_self {text : Bytes} (hnewline : (10 : UInt8) ∉ text)
    (hnul : (0 : UInt8) ∉ text) : command text = text := by
  have happend : command (text ++ []) = text ++ [].takeWhile (· ≠ 10) :=
    command_append hnewline (by rwa [List.append_nil])
  rwa [List.append_nil, List.takeWhile_nil, List.append_nil] at happend

theorem command_command (line : Bytes) : command (command line) = command line :=
  command_eq_self (newline_not_mem_command line) (nul_not_mem_command line)

/-- The loop looks at nothing but the commands. -/
theorem commandLoop_command (aes : AesGcm) (sessionKey : SessionKey) (nonces : Stream' Nonce)
    (iterations : List Iteration) :
    commandLoop aes sessionKey nonces
        (iterations.map fun iteration => { iteration with line := command iteration.line }) =
      commandLoop aes sessionKey nonces iterations := by
  induction iterations generalizing nonces with
  | nil => rfl
  | cons iteration rest ih =>
      have hcommand : (cstr (command iteration.line)).takeWhile (· ≠ 10) =
          (cstr iteration.line).takeWhile (· ≠ 10) := command_command iteration.line
      rw [List.map_cons, commandLoop, commandLoop]
      simp only [hcommand, ih]

/-! ## When the commands are the lines -/

/-- A list in which each entry stands for exactly one. -/
theorem flatMap_eq_map_iff {α β : Type} {f : α → List β} {g : α → β} (hf : ∀ a, f a ≠ [])
    (xs : List α) : xs.flatMap f = xs.map g ↔ ∀ a ∈ xs, f a = [g a] := by
  have hlength : ∀ xs : List α, xs.length ≤ (xs.flatMap f).length := by
    intro xs
    induction xs with
    | nil => exact Nat.le_refl 0
    | cons a xs ih =>
        have hpos := List.length_pos_iff.mpr (hf a)
        rw [List.flatMap_cons, List.length_append, List.length_cons]
        omega
  constructor
  · intro h
    induction xs with
    | nil => simp
    | cons a xs ih =>
        rw [List.flatMap_cons, List.map_cons] at h
        obtain ⟨b, rest, hb⟩ := List.exists_cons_of_ne_nil (hf a)
        have hsum := congrArg List.length h
        rw [hb, List.length_append, List.length_cons, List.length_cons, List.length_map] at hsum
        have hle := hlength xs
        have hrest : rest = [] := List.length_eq_zero_iff.mp (by omega)
        rw [hb, hrest, List.singleton_append, List.cons.injEq] at h
        refine List.forall_mem_cons.mpr ⟨?_, ih h.2⟩
        rw [hb, hrest, h.1]
  · intro h
    rw [List.flatMap_congr h, List.map_eq_flatMap]

/-- The pieces of a line are one command, the line itself, when it is short and holds
no NUL. -/
theorem commands_of_line_iff (line : TypedLine) :
    (pieces (line.text ++ [10])).map command = [line.text] ↔
      line.text.length < maxLine - 1 ∧ (0 : UInt8) ∉ line.text := by
  have hne : line.text ++ [10] ≠ [] := by simp
  have hlength : (line.text ++ [10]).length = line.text.length + 1 := List.length_append
  by_cases hshort : line.text.length < maxLine - 1
  · rw [pieces_of_length_le hne (by omega), List.map_singleton, List.singleton_inj]
    constructor
    · intro h
      refine ⟨hshort, ?_⟩
      rw [← h]
      exact nul_not_mem_command _
    · rintro ⟨_, hnul⟩
      have hnul' : (0 : UInt8) ∉ line.text ++ [10] := by simp [hnul]
      rw [command_append line.no_newline hnul']
      exact List.append_nil _
  · have hdrop : (line.text ++ [10]).drop (maxLine - 1) ≠ [] := by
      rw [Ne, List.drop_eq_nil_iff]
      omega
    rw [pieces_of_ne_nil hne, pieces_of_ne_nil hdrop]
    constructor
    · intro h
      have htwo := congrArg List.length h
      rw [List.map_cons, List.map_cons, List.length_cons, List.length_cons,
        List.length_singleton] at htwo
      omega
    · rintro ⟨h, _⟩
      exact absurd h hshort

/-- The commands are the lines that were typed exactly when each of them is shorter
than the buffer and holds no NUL. -/
theorem commandsIn_iff (lines : List TypedLine) :
    commandsIn (typed lines) = lines.map TypedLine.text ↔
      ∀ line ∈ lines, line.text.length < maxLine - 1 ∧ (0 : UInt8) ∉ line.text := by
  have hpieces : ∀ line : TypedLine, (pieces (line.text ++ [10])).map command ≠ [] := by
    intro line h
    have hne : line.text ++ [10] ≠ [] := by simp
    rw [List.map_eq_nil_iff, pieces_of_ne_nil hne] at h
    exact List.cons_ne_nil _ _ h
  rw [commandsIn, reads_typed, List.map_flatMap, flatMap_eq_map_iff hpieces]
  exact forall₂_congr fun line _ => commands_of_line_iff line

/-! ## The session -/

/-- What the iterations of the loop find, when they read these lines. -/
def iterationsOf (lines : List Bytes) (rands : Stream' Nat) (pendings : Stream' (Option Bytes)) :
    List Iteration :=
  lines.mapIdx fun i line => ⟨line, rands.get i, pendings.get i⟩

theorem commandLoop_reads (aes : AesGcm) (sessionKey : SessionKey) (nonces : Stream' Nonce)
    (input : Bytes) (rands : Stream' Nat) (pendings : Stream' (Option Bytes)) :
    commandLoop aes sessionKey nonces (iterationsOf (reads input) rands pendings) =
      commandLoop aes sessionKey nonces (iterationsOf (commandsIn input) rands pendings) := by
  rw [← commandLoop_command aes sessionKey nonces (iterationsOf (reads input) rands pendings)]
  refine congrArg (commandLoop aes sessionKey nonces) (List.ext_getElem? fun i => ?_)
  simp only [iterationsOf, commandsIn, List.getElem?_map, List.getElem?_mapIdx, Option.map_map]
  rfl

/-- **The session of what is typed**: the loop looks at nothing but the commands, these
are the pieces of the lines, and they are the lines exactly when each line is shorter
than the buffer and holds no NUL. -/
theorem commandLoop_typed (lines : List TypedLine) :
    (∀ (aes : AesGcm) (sessionKey : SessionKey) (nonces : Stream' Nonce) (rands : Stream' Nat)
      (pendings : Stream' (Option Bytes)),
      commandLoop aes sessionKey nonces (iterationsOf (reads (typed lines)) rands pendings) =
        commandLoop aes sessionKey nonces
          (iterationsOf (commandsIn (typed lines)) rands pendings)) ∧
      commandsIn (typed lines) =
        (lines.flatMap fun line => pieces (line.text ++ [10])).map command ∧
      (commandsIn (typed lines) = lines.map TypedLine.text ↔
        ∀ line ∈ lines, line.text.length < maxLine - 1 ∧ (0 : UInt8) ∉ line.text) := by
  refine ⟨?_, ?_, commandsIn_iff lines⟩
  · intro aes sessionKey nonces rands pendings
    exact commandLoop_reads aes sessionKey nonces (typed lines) rands pendings
  · rw [commandsIn, reads_typed]

end ShardedLedger.Client
