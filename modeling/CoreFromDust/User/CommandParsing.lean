import CoreFromDust.User.Shell

/-!
# The arguments of a command

`ProcessArguments::new` against the tokens of the command: each redirection takes the first of its
signs and the token after it out of them. A sign with nothing after it panics.
-/

namespace CoreFromDust.User

/-- The non-empty parts of a command between its spaces. -/
def tokens (command : String) : List String :=
  (split ' ' command).filter fun token => !token.isEmpty

/-- A string with its NUL terminator. -/
def terminated (token : String) : String := token.push '\x00'

theorem terminated_inj {token token' : String} : terminated token = terminated token' ↔
    token = token' := by
  constructor
  · intro same
    have lists := congrArg String.toList same
    rw [terminated, terminated, String.toList_push, String.toList_push] at lists
    exact String.toList_inj.mp (List.append_cancel_right lists)
  · rintro rfl
    rfl

/-- Taking the first `sign` and the token after it out of the tokens, if there is a sign. -/
inductive Redirected (sign : String) : List String → Option String → List String → Prop
  | absent {args} : sign ∉ args → Redirected sign args none args
  | taken {before file after} : sign ∉ before →
      Redirected sign (before ++ sign :: file :: after) (some file) (before ++ after)

/-- The first `sign` is the last token. -/
def Dangling (sign : String) (args : List String) : Prop :=
  ∃ before, sign ∉ before ∧ args = before ++ [sign]

/-- Where the first sign of the tokens is. -/
theorem dangling_or_redirected (sign : String) (args : List String) :
    Dangling sign args ∨ ∃ file rest, Redirected sign args file rest := by
  by_cases present : sign ∈ args
  · obtain ⟨before, after, rfl, first⟩ := List.eq_append_cons_of_mem present
    cases after with
    | nil => exact .inl ⟨before, first, rfl⟩
    | cons file after => exact .inr ⟨_, _, .taken first⟩
  · exact .inr ⟨_, _, .absent present⟩

/-- What `new` leaves of the tokens: the files of the two redirections and the other tokens, with
their terminators. -/
structure Parsed (pa : ProcessArguments) (input output : Option String) (rest : List String) :
    Prop where
  input : pa.input = (input.map terminated).getD ""
  output : pa.output = (output.map terminated).getD ""
  argsCopy : pa.argsCopy.map HeapString.text = rest.map terminated
  argsAddr : pa.argsAddr = pa.argsCopy.map HeapString.ptr ++ [0]

namespace ProcessArguments

section Redirect

variable {sign : String} {args : List String} {argsCopy : List HeapString}

/-- The position of the first sign. -/
theorem findIdx_sign {before after : List HeapString}
    (first : ∀ arg ∈ before, arg.text ≠ terminated sign) {found : HeapString}
    (hit : found.text = terminated sign) :
    (before ++ found :: after).findIdx? (fun arg => arg.text == terminated sign) =
      some before.length := by
  have none : before.findIdx? (fun arg => arg.text == terminated sign) = none := by
    rw [List.findIdx?_eq_none_iff]
    intro arg mem
    simpa using first arg mem
  rw [List.findIdx?_append, none, List.findIdx?_cons]
  simp [hit]

/-- The strings of tokens without the sign are not the sign either. -/
theorem ne_sign {before : List String} {strings : List HeapString}
    (texts : strings.map HeapString.text = before.map terminated) (first : sign ∉ before) :
    ∀ arg ∈ strings, arg.text ≠ terminated sign := by
  intro arg mem same
  have inTexts : arg.text ∈ before.map terminated := texts ▸ List.mem_map_of_mem mem
  obtain ⟨token, inBefore, text⟩ := List.mem_map.mp inTexts
  rw [same, terminated_inj] at text
  exact first (text ▸ inBefore)

theorem redirect_dangling (texts : argsCopy.map HeapString.text = args.map terminated)
    (dangling : Dangling sign args) : redirect (terminated sign) argsCopy = none := by
  obtain ⟨before, first, rfl⟩ := dangling
  rw [List.map_append, List.map_singleton] at texts
  obtain ⟨strings, last, rfl, textsBefore, textsLast⟩ := List.map_eq_append_iff.mp texts
  obtain ⟨found, rfl, hit⟩ := List.map_eq_singleton_iff.mp textsLast
  rw [redirect, findIdx_sign (ne_sign textsBefore first) hit]
  simp

theorem redirect_redirected {file : Option String} {rest : List String}
    (texts : argsCopy.map HeapString.text = args.map terminated)
    (redirected : Redirected sign args file rest) :
    ∃ left, redirect (terminated sign) argsCopy = some ((file.map terminated).getD "", left) ∧
      left.map HeapString.text = rest.map terminated := by
  cases redirected with
  | absent none =>
      refine ⟨argsCopy, ?_, texts⟩
      have notFound : argsCopy.findIdx? (fun arg => arg.text == terminated sign) = Option.none := by
        rw [List.findIdx?_eq_none_iff]
        intro arg mem
        simpa using ne_sign texts none arg mem
      rw [redirect, notFound]
      rfl
  | @taken before file after first =>
      rw [List.map_append, List.map_cons, List.map_cons] at texts
      obtain ⟨strings, others, rfl, textsBefore, textsOthers⟩ := List.map_eq_append_iff.mp texts
      obtain ⟨found, others, rfl, hit, textsOthers⟩ := List.map_eq_cons_iff.mp textsOthers
      obtain ⟨next, others, rfl, text, textsAfter⟩ := List.map_eq_cons_iff.mp textsOthers
      refine ⟨strings ++ others,
        ?_, by rw [List.map_append, List.map_append, textsBefore, textsAfter]⟩
      rw [redirect, findIdx_sign (ne_sign textsBefore first) hit]
      simp [text]

end Redirect

/-- The strings that `new` starts from. -/
theorem new_eq (place : Nat → Nat) (command : String) : ∃ argsCopy : List HeapString,
    argsCopy.map HeapString.text = (tokens command).map terminated ∧
      new place command = (redirect (terminated "<") argsCopy).bind fun r =>
        (redirect (terminated ">") r.2).bind fun r' =>
          some ⟨r.1, r'.1, r'.2, r'.2.map HeapString.ptr ++ [0]⟩ := by
  refine ⟨(tokens command).mapIdx fun i arg => ⟨terminated arg, place i⟩, ?_, ?_⟩
  · rw [List.mapIdx_eq_zipIdx_map, List.map_map]
    conv_rhs => rw [← List.zipIdx_map_fst 0 (tokens command), List.map_map]
    rfl
  · have input : terminated "<" = "<\x00" := by decide
    have output : terminated ">" = ">\x00" := by decide
    rw [input, output]
    simp only [new, String.empty_append]
    rfl

/-- `new` returns, and what it makes of the redirections. -/
theorem new_parsed {command : String} {input output : Option String} {rest₁ rest₂ : List String}
    (place : Nat → Nat) (first : Redirected "<" (tokens command) input rest₁)
    (second : Redirected ">" rest₁ output rest₂) :
    ∃ pa, new place command = some pa ∧ Parsed pa input output rest₂ := by
  obtain ⟨argsCopy, texts, eq⟩ := new_eq place command
  obtain ⟨left, taken, texts₁⟩ := redirect_redirected texts first
  obtain ⟨left', taken', texts₂⟩ := redirect_redirected texts₁ second
  rw [eq, taken, Option.bind_some, taken', Option.bind_some]
  exact ⟨_, rfl, rfl, rfl, texts₂, rfl⟩

/-- A `<` with nothing after it. -/
theorem new_dangling_input {command : String} (place : Nat → Nat)
    (dangling : Dangling "<" (tokens command)) : new place command = none := by
  obtain ⟨argsCopy, texts, eq⟩ := new_eq place command
  rw [eq, redirect_dangling texts dangling, Option.bind_none]

/-- A `>` with nothing after it. -/
theorem new_dangling_output {command : String} {input : Option String} {rest : List String}
    (place : Nat → Nat) (first : Redirected "<" (tokens command) input rest)
    (dangling : Dangling ">" rest) : new place command = none := by
  obtain ⟨argsCopy, texts, eq⟩ := new_eq place command
  obtain ⟨left, taken, texts₁⟩ := redirect_redirected texts first
  rw [eq, taken, Option.bind_some, redirect_dangling texts₁ dangling, Option.bind_none]

/-- For every command, `new` returns and keeps the files of the redirections and the other tokens,
if and only if the first `<` is followed by a token and so is, without these two, the first `>`. -/
theorem new_returns_iff (place : Nat → Nat) (command : String) :
    (∃ pa, new place command = some pa ∧ pa.argsAddr = pa.argsCopy.map HeapString.ptr ++ [0] ∧
        ∀ input rest₁ output rest₂, Redirected "<" (tokens command) input rest₁ →
          Redirected ">" rest₁ output rest₂ → Parsed pa input output rest₂) ↔
      ¬ Dangling "<" (tokens command) ∧
        ∀ input rest, Redirected "<" (tokens command) input rest → ¬ Dangling ">" rest := by
  constructor
  · rintro ⟨pa, returned, -, -⟩
    refine ⟨fun dangling => ?_, fun input rest first dangling => ?_⟩
    · rw [new_dangling_input place dangling] at returned
      simp at returned
    · rw [new_dangling_output place first dangling] at returned
      simp at returned
  · rintro ⟨followed, followed'⟩
    obtain ⟨input, rest₁, first⟩ :=
      (dangling_or_redirected "<" (tokens command)).resolve_left followed
    obtain ⟨output, rest₂, second⟩ :=
      (dangling_or_redirected ">" rest₁).resolve_left (followed' input rest₁ first)
    obtain ⟨pa, returned, parsed⟩ := new_parsed place first second
    refine ⟨pa, returned, parsed.argsAddr, fun input' rest₁' output' rest₂' first' second' => ?_⟩
    obtain ⟨pa', returned', parsed'⟩ := new_parsed place first' second'
    rw [returned, Option.some.injEq] at returned'
    exact returned' ▸ parsed'

/-- `cat <` has no file to read from. -/
theorem new_cat_panics : ¬ ∀ place command, ∃ pa, new place command = some pa := by
  intro total
  obtain ⟨pa, returned⟩ := total id "cat <"
  have dangling : Dangling "<" (tokens "cat <") := ⟨["cat"], by decide, by decide⟩
  rw [new_dangling_input id dangling] at returned
  simp at returned

end ProcessArguments

end CoreFromDust.User
