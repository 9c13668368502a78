import Cali.Linker.Libtool

/-!
# The substitution of arguments

`modifyArguments` takes the arguments that name a configuration file out of the vector and
replaces those for which the configuration has a replacement.  It goes through the vector from
its end by index, and edits it in place.  After an erasure the index designates what stood
behind it, and that is what the second edit of the turn looks at: there may be nothing, or an
argument that was dealt with before.
-/

namespace Cali.Linker

/-- `replaceArguments` of the configuration -/
abbrev Replacements := Str → Option (List Str)

/-- The argument names a configuration file. -/
def isConfigArgument (arg : Str) : Bool :=
  startsWith arg "--ipc-config=".toList || startsWith arg "--cali-config=".toList

/-! ## `modifyArguments` -/

/-- The loop of insertions, from the position `pos` on; there is no result if a position is out of
range. -/
def insertTexts (arguments : List Str) (pos : ℕ) : List Str → Option (List Str)
  | [] => some arguments
  | text :: texts =>
    if pos ≤ arguments.length then
      insertTexts (arguments.take pos ++ text :: arguments.drop pos) (pos + 1) texts
    else none

/-- The first edit of a turn: `erase` for an argument that names a configuration file. -/
def eraseConfig (arguments : List Str) (i : ℕ) : Option (List Str) :=
  (arguments[i]?).map fun arg ↦
    if isConfigArgument arg = true then arguments.eraseIdx i else arguments

/-- The second edit of a turn, for the argument that is at the index now. -/
def replaceAt (replaceArguments : Replacements) (arguments : List Str) (i : ℕ) :
    Option (List Str) :=
  (arguments[i]?).bind fun arg ↦
    match replaceArguments arg with
    | none => some arguments
    | some [] => some (arguments.eraseIdx i)
    | some (text :: texts) => insertTexts (arguments.set i text) (i + 1) texts

/-- The turns for the indices below `n`, from the last one down. -/
def modifyLoop (replaceArguments : Replacements) : ℕ → List Str → Option (List Str)
  | 0, arguments => some arguments
  | i + 1, arguments =>
    (eraseConfig arguments i).bind fun arguments ↦
      (replaceAt replaceArguments arguments i).bind (modifyLoop replaceArguments i)

/-- `modifyArguments`; there is no result if the vector is accessed out of range. -/
def modifyArguments (replaceArguments : Replacements) (arguments : List Str) :
    Option (List Str) :=
  modifyLoop replaceArguments arguments.length arguments

/-! ## What it is for -/

/-- What an argument is to be replaced by. -/
def substitute (replaceArguments : Replacements) (arg : Str) : List Str :=
  if isConfigArgument arg = true then [] else (replaceArguments arg).getD [arg]

/-- The text that a text is replaced by, if that is one text. -/
def replaceByOne (replaceArguments : Replacements) (text : Str) : Option Str :=
  match replaceArguments text with
  | none => some text
  | some [text'] => some text'
  | some _ => none

/-- A number of replacements of a text, one after another -/
def replaceTimes (replaceArguments : Replacements) : ℕ → Str → Option Str
  | 0, text => some text
  | k + 1, text => (replaceByOne replaceArguments text).bind (replaceTimes replaceArguments k)

/-- Behind the arguments that name a configuration file, `k` of them directly before, there is a
text left, and as many replacements of it give the same text. -/
def Restored (replaceArguments : Replacements) : ℕ → List Str → Prop
  | k, [] => k = 0
  | k, arg :: args =>
    if isConfigArgument arg = true then Restored replaceArguments (k + 1) args
    else match substitute replaceArguments arg with
      | [] => Restored replaceArguments k args
      | text :: _ =>
        replaceTimes replaceArguments k text = some text ∧ Restored replaceArguments 0 args

/-- No text of a replacement is deleted. -/
def KeepsTexts (replaceArguments : Replacements) : Prop :=
  ∀ arg texts text, replaceArguments arg = some texts → text ∈ texts →
    replaceArguments text ≠ some []

section Edits

variable {replaceArguments : Replacements} {pre rest : List Str} {arg : Str}

theorem insertTexts_append (texts : List Str) :
    insertTexts (pre ++ rest) pre.length texts = some (pre ++ (texts ++ rest)) := by
  induction texts generalizing pre with
  | nil => rfl
  | cons text texts ih =>
    have hlength : pre.length + 1 = (pre ++ [text]).length := by
      rw [List.length_append, List.length_singleton]
    have hsplit : pre ++ text :: rest = (pre ++ [text]) ++ rest := by
      rw [List.append_assoc, List.singleton_append]
    rw [insertTexts, if_pos (by rw [List.length_append]; exact Nat.le_add_right ..),
      List.take_left, List.drop_left, hsplit, hlength, ih, List.append_assoc,
      List.singleton_append, List.cons_append]

theorem eraseIdx_append_length : (pre ++ arg :: rest).eraseIdx pre.length = pre ++ rest := by
  rw [List.eraseIdx_append_of_length_le le_rfl, Nat.sub_self, List.eraseIdx_cons_zero]

theorem eraseConfig_append :
    eraseConfig (pre ++ arg :: rest) pre.length =
      some (if isConfigArgument arg = true then pre ++ rest else pre ++ arg :: rest) := by
  unfold eraseConfig
  rw [getElem?_append_length, Option.map_some, eraseIdx_append_length]

theorem replaceAt_append :
    replaceAt replaceArguments (pre ++ arg :: rest) pre.length =
      some (pre ++ ((replaceArguments arg).getD [arg] ++ rest)) := by
  unfold replaceAt
  rw [getElem?_append_length, Option.bind_some]
  rcases replaceArguments arg with _ | _ | ⟨text, texts⟩
  · rfl
  · exact congrArg some eraseIdx_append_length
  · have hlength : pre.length + 1 = (pre ++ [text]).length := by
      rw [List.length_append, List.length_singleton]
    dsimp only
    rw [set_append_length, hlength, insertTexts_append, List.append_assoc, List.singleton_append,
      Option.getD_some, List.cons_append]

theorem replaceAt_nil : replaceAt replaceArguments pre pre.length = none := by
  unfold replaceAt
  rw [List.getElem?_eq_none le_rfl, Option.bind_none]

end Edits

/-! ## The vector as a stack -/

section Turns

variable {replaceArguments : Replacements} {arg text : Str} {args rest rest' texts : List Str}

/-- The first text is replaced. -/
def replaceFirst (replaceArguments : Replacements) : List Str → Option (List Str)
  | [] => none
  | text :: rest => some ((replaceArguments text).getD [text] ++ rest)

/-- One turn, for what has become of the arguments behind. -/
def turn (replaceArguments : Replacements) (arg : Str) (rest : List Str) : Option (List Str) :=
  if isConfigArgument arg = true then replaceFirst replaceArguments rest
  else some (substitute replaceArguments arg ++ rest)

/-- The turns for a list of arguments, from the last one down. -/
def turns (replaceArguments : Replacements) : List Str → Option (List Str)
  | [] => some []
  | arg :: args => (turns replaceArguments args).bind (turn replaceArguments arg)

/-- **One turn** of the loop -/
theorem modifyLoop_turn {pre : List Str} :
    modifyLoop replaceArguments (pre.length + 1) (pre ++ arg :: rest) =
      (turn replaceArguments arg rest).bind fun rest ↦
        modifyLoop replaceArguments pre.length (pre ++ rest) := by
  rw [modifyLoop, eraseConfig_append, Option.bind_some]
  unfold turn substitute
  by_cases hconfig : isConfigArgument arg = true
  · rw [if_pos hconfig, if_pos hconfig]
    cases rest with
    | nil => rw [List.append_nil, replaceAt_nil, Option.bind_none]; rfl
    | cons next rest => rw [replaceAt_append]; rfl
  · rw [if_neg hconfig, if_neg hconfig, if_neg hconfig, replaceAt_append]
    rfl

/-- The loop goes through the arguments as `turns` does. -/
theorem modifyLoop_eq (replaceArguments : Replacements) (args pre : List Str) :
    ((turns replaceArguments args).bind fun rest ↦
        modifyLoop replaceArguments pre.length (pre ++ rest)) =
      turns replaceArguments (pre ++ args) := by
  induction pre using List.reverseRecOn generalizing args with
  | nil => exact Option.bind_fun_some _
  | append_singleton pre arg ih =>
    simp only [List.length_append, List.length_singleton, List.append_assoc,
      List.singleton_append, modifyLoop_turn]
    rw [← ih, turns, Option.bind_assoc]

theorem modifyArguments_eq_turns : modifyArguments replaceArguments args =
    turns replaceArguments args := by
  have hloop := modifyLoop_eq replaceArguments [] args
  rwa [List.append_nil, turns, Option.bind_some, List.append_nil] at hloop

/-- The first text is replaced a number of times. -/
def replaceFirstTimes (replaceArguments : Replacements) : ℕ → List Str → Option (List Str)
  | 0, rest => some rest
  | k + 1, rest =>
    (replaceFirst replaceArguments rest).bind (replaceFirstTimes replaceArguments k)

theorem replaceFirstTimes_cons {k : ℕ} {text' : Str}
    (h : replaceTimes replaceArguments k text = some text') :
    replaceFirstTimes replaceArguments k (text :: rest) = some (text' :: rest) := by
  induction k generalizing text with
  | zero => rw [Option.some.inj h, replaceFirstTimes]
  | succ k ih =>
    obtain ⟨next, hnext, htimes⟩ := Option.bind_eq_some_iff.mp h
    have hone : (replaceArguments text).getD [text] = [next] := by
      unfold replaceByOne at hnext
      split at hnext
      next heq => rw [heq, ← Option.some.inj hnext]; rfl
      next heq => rw [heq, ← Option.some.inj hnext]; rfl
      next => exact absurd hnext (by simp)
    rw [replaceFirstTimes, replaceFirst, hone, Option.bind_some]
    exact ih htimes

/-- **The condition is enough**: what is left of the arguments is right after the replacements that
the arguments before are going to make. -/
theorem Restored.turns {k : ℕ} (h : Restored replaceArguments k args) :
    ∃ rest, turns replaceArguments args = some rest ∧ replaceFirstTimes replaceArguments k rest =
      some (args.flatMap (substitute replaceArguments)) := by
  induction args generalizing k with
  | nil =>
    obtain rfl : k = 0 := h
    exact ⟨[], rfl, rfl⟩
  | cons arg args ih =>
    unfold Restored at h
    rw [Linker.turns, List.flatMap_cons]
    by_cases hconfig : isConfigArgument arg = true
    · rw [if_pos hconfig] at h
      obtain ⟨rest, hrest, htimes⟩ := ih h
      obtain ⟨rest', hfirst, htimes⟩ := Option.bind_eq_some_iff.mp htimes
      refine ⟨rest', ?_, ?_⟩
      · rw [hrest, Option.bind_some, turn, if_pos hconfig, hfirst]
      · rw [htimes, substitute, if_pos hconfig, List.nil_append]
    · rw [if_neg hconfig] at h
      split at h
      next hsub =>
        obtain ⟨rest, hrest, htimes⟩ := ih h
        refine ⟨rest, ?_, ?_⟩
        · rw [hrest, Option.bind_some, turn, if_neg hconfig, hsub, List.nil_append]
        · rw [htimes, hsub, List.nil_append]
      next text texts hsub =>
        obtain ⟨rest, hrest, htimes⟩ := ih h.2
        obtain rfl := Option.some.inj htimes
        rw [hsub, List.cons_append]
        refine ⟨_, ?_, replaceFirstTimes_cons h.1⟩
        rw [hrest, Option.bind_some, turn, if_neg hconfig, hsub, List.cons_append]

/-- The text is not deleted. -/
def Lasting (replaceArguments : Replacements) (text : Str) : Prop :=
  replaceArguments text ≠ some []

theorem KeepsTexts.getD (h : KeepsTexts replaceArguments) (hkept : Lasting replaceArguments text) :
    ∃ first texts, (replaceArguments text).getD [text] = first :: texts ∧
      ∀ text' ∈ first :: texts, Lasting replaceArguments text' := by
  cases htext : replaceArguments text with
  | none => exact ⟨text, [], rfl, fun text' h' ↦ List.mem_singleton.mp h' ▸ hkept⟩
  | some texts =>
    cases texts with
    | nil => exact absurd htext hkept
    | cons first texts => exact ⟨first, texts, rfl, fun text' h' ↦ h _ _ _ htext h'⟩

theorem KeepsTexts.substitute (h : KeepsTexts replaceArguments) :
    ∀ text ∈ substitute replaceArguments arg, Lasting replaceArguments text := by
  intro text htext
  unfold Linker.substitute at htext
  by_cases hconfig : isConfigArgument arg = true
  · rw [if_pos hconfig] at htext
    exact absurd htext List.not_mem_nil
  · rw [if_neg hconfig] at htext
    cases harg : replaceArguments arg with
    | none =>
      rw [harg] at htext
      rw [List.mem_singleton.mp htext, Lasting, harg]
      exact nofun
    | some texts => exact h _ _ _ harg (by rwa [harg] at htext)

theorem KeepsTexts.turns (h : KeepsTexts replaceArguments)
    (hrest : turns replaceArguments args = some rest) :
    (args.flatMap (Linker.substitute replaceArguments)).length ≤ rest.length ∧
      ∀ text ∈ rest, Lasting replaceArguments text := by
  induction args generalizing rest with
  | nil =>
    obtain rfl := Option.some.inj hrest
    exact ⟨le_rfl, nofun⟩
  | cons arg args ih =>
    obtain ⟨rest', hrest', hturn⟩ := Option.bind_eq_some_iff.mp hrest
    obtain ⟨hle, hkept⟩ := ih hrest'
    rw [List.flatMap_cons, List.length_append]
    unfold turn at hturn
    by_cases hconfig : isConfigArgument arg = true
    · rw [if_pos hconfig] at hturn
      cases rest' with
      | nil => exact absurd hturn nofun
      | cons text rest' =>
        obtain ⟨first, texts, hget, hfirst⟩ := h.getD (hkept text List.mem_cons_self)
        rw [replaceFirst, hget] at hturn
        obtain rfl := Option.some.inj hturn
        rw [Linker.substitute, if_pos hconfig]
        refine ⟨?_, fun text' htext' ↦ ?_⟩
        · simp only [List.length_nil, List.length_cons, List.length_append] at hle ⊢
          omega
        · rcases List.mem_append.mp htext' with htext' | htext'
          · exact hfirst text' htext'
          · exact hkept text' (List.mem_cons_of_mem _ htext')
    · rw [if_neg hconfig] at hturn
      obtain rfl := Option.some.inj hturn
      refine ⟨by rw [List.length_append]; omega, fun text' htext' ↦ ?_⟩
      rcases List.mem_append.mp htext' with htext' | htext'
      · exact h.substitute text' htext'
      · exact hkept text' htext'

/-- What replacements of the first text leave, where no text of a replacement is deleted. -/
theorem KeepsTexts.replaceFirstTimes (h : KeepsTexts replaceArguments) {k : ℕ}
    (hkept : Lasting replaceArguments text)
    (htimes : replaceFirstTimes replaceArguments k (text :: rest) = some rest') :
    ∃ text' texts, rest' = text' :: (texts ++ rest) ∧
      (texts = [] → replaceTimes replaceArguments k text = some text') := by
  induction k generalizing text rest with
  | zero => exact ⟨text, [], (Option.some.inj htimes).symm, fun _ ↦ rfl⟩
  | succ k ih =>
    obtain ⟨first, texts, hget, hfirst⟩ := h.getD hkept
    rw [Linker.replaceFirstTimes, replaceFirst, hget, Option.bind_some,
      List.cons_append] at htimes
    obtain ⟨text', texts', hrest', hone⟩ := ih (hfirst first List.mem_cons_self) htimes
    refine ⟨text', texts' ++ texts, by rw [hrest', List.append_assoc], fun hnil ↦ ?_⟩
    obtain ⟨htexts', rfl⟩ := List.append_eq_nil_iff.mp hnil
    rw [replaceTimes, ← hone htexts']
    suffices hby : replaceByOne replaceArguments text = some first by rw [hby, Option.bind_some]
    unfold replaceByOne
    cases htext : replaceArguments text with
    | none => rw [htext] at hget; exact congrArg some (List.cons.inj hget).1
    | some texts =>
      rw [htext] at hget
      obtain rfl : texts = [first] := hget
      rfl

/-- **The condition is needed**, where no text of a replacement is deleted. -/
theorem KeepsTexts.restored (h : KeepsTexts replaceArguments) {k : ℕ}
    (hrest : Linker.turns replaceArguments args = some rest)
    (htimes : Linker.replaceFirstTimes replaceArguments k rest =
      some (args.flatMap (Linker.substitute replaceArguments))) :
    Restored replaceArguments k args := by
  induction args generalizing k rest with
  | nil =>
    obtain rfl := Option.some.inj hrest
    cases k with
    | zero => rfl
    | succ k => exact absurd htimes nofun
  | cons arg args ih =>
    obtain ⟨rest', hrest', hturn⟩ := Option.bind_eq_some_iff.mp hrest
    unfold Restored
    unfold turn at hturn
    rw [List.flatMap_cons] at htimes
    by_cases hconfig : isConfigArgument arg = true
    · rw [if_pos hconfig] at hturn ⊢
      rw [Linker.substitute, if_pos hconfig, List.nil_append] at htimes
      exact ih hrest' (by rw [Linker.replaceFirstTimes, hturn, Option.bind_some, htimes])
    · rw [if_neg hconfig] at hturn ⊢
      obtain rfl := Option.some.inj hturn
      split
      next hsub =>
        rw [hsub, List.nil_append] at htimes
        exact ih hrest' htimes
      next text texts hsub =>
        simp only [hsub, List.cons_append] at htimes
        have hkept := h.substitute text (by rw [hsub]; exact List.mem_cons_self)
        obtain ⟨text', texts', heq, hone⟩ := h.replaceFirstTimes hkept htimes
        -- what is left of the arguments behind is not shorter than it should be
        have hle := (h.turns hrest').1
        obtain ⟨rfl, htail⟩ := List.cons.inj heq
        have hlength := congrArg List.length htail
        rw [List.length_append, List.length_append, List.length_append] at hlength
        obtain rfl : texts' = [] := List.eq_nil_of_length_eq_zero (by omega)
        have hsame := List.append_cancel_left htail
        exact ⟨hone rfl, ih hrest' (congrArg some hsame.symm)⟩

end Turns

/-- **Rewriting the arguments is a substitution** if the text behind each group of arguments that
are taken out is restored; where no text of a replacement is deleted, only if. -/
theorem modifyArguments_eq_iff_restored {replaceArguments : Replacements} {arguments : List Str} :
    (Restored replaceArguments 0 arguments → modifyArguments replaceArguments arguments =
      some (arguments.flatMap (substitute replaceArguments))) ∧
    (KeepsTexts replaceArguments → modifyArguments replaceArguments arguments =
      some (arguments.flatMap (substitute replaceArguments)) →
        Restored replaceArguments 0 arguments) := by
  rw [modifyArguments_eq_turns]
  refine ⟨fun h ↦ ?_, fun hkeeps h ↦ hkeeps.restored h rfl⟩
  obtain ⟨rest, hrest, htimes⟩ := h.turns
  rw [hrest, Option.some.inj htimes]

/-- Two libraries that are replaced by each other. -/
def exchangesTwo : Replacements := fun arg ↦
  if arg = "-la".toList then some ["-lb".toList]
  else if arg = "-lb".toList then some ["-la".toList]
  else none

theorem modifyArguments_exchangesTwo :
    modifyArguments exchangesTwo
        ["--cali-config=c".toList, "--cali-config=d".toList, "-la".toList, "x.o".toList] =
      some ["-lb".toList, "x.o".toList] ∧
    Restored exchangesTwo 0
        ["--cali-config=c".toList, "--ipc-config=d".toList, "-lb".toList] := by
  have hrestored : Restored exchangesTwo 0
      ["--cali-config=c".toList, "--cali-config=d".toList, "-la".toList, "x.o".toList] :=
    show replaceTimes exchangesTwo 2 "-lb".toList = some "-lb".toList ∧
        replaceTimes exchangesTwo 0 "x.o".toList = some "x.o".toList ∧ 0 = 0 from
      ⟨by decide, rfl, rfl⟩
  have hkeeps : KeepsTexts exchangesTwo := by
    intro arg texts text _ _
    unfold exchangesTwo
    split_ifs
    · exact nofun
    · exact nofun
    · exact nofun
  refine ⟨(modifyArguments_eq_iff_restored.1 hrestored).trans (by decide), ?_⟩
  exact modifyArguments_eq_iff_restored.2 hkeeps (by decide)

/-- Replacements for two libraries, the first one by the second one. -/
def replacesTwo : Replacements := fun arg ↦
  if arg = "-la".toList then some ["-lb".toList, "-lm".toList]
  else if arg = "-lb".toList then some ["-lc".toList]
  else none

/-- The configuration file may be named last, and then the vector is accessed behind its end; and a
text that has replaced an argument may be replaced once more. -/
theorem modifyArguments_ne_substitute :
    modifyArguments replacesTwo ["x.o".toList, "--cali-config=c".toList] = none ∧
      modifyArguments replacesTwo ["--cali-config=c".toList, "-la".toList] =
        some ["-lc".toList, "-lm".toList] ∧
      ["--cali-config=c".toList, "-la".toList].flatMap (substitute replacesTwo) =
        ["-lb".toList, "-lm".toList] := by
  decide

end Cali.Linker
