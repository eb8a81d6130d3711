import GateAsm.Proofs.Written.Statements

/-!
# Lines as they are written

The text of a module is the text of its lines, one below the other. Nothing but a line break separates
them, and the parser takes that for any other blank: what it reads are the same lines exactly if no bare
instruction stands in front of one that names its results (`Line.Separated`).
-/

namespace GateAsm

namespace Line

def text (l : Line) : String :=
  if l.names.isEmpty then l.statement.text l.kind
  else ", ".intercalate l.names ++ " = " ++ l.statement.text l.kind

def form (l : Line) : LineSyntax := ⟨l.names, l.kind.name, l.statement.form⟩

def tupled (l : Line) : Line := { l with statement := l.statement.tupled }

structure Writable (r : Registry) (l : Line) : Prop where
  statement : l.statement.Writable l.kind
  names : ∀ n ∈ l.names, IsValueName n
  registered : r.kind? l.kind.name = some l.kind

/-- No bare instruction stands directly in front of one that names its results. -/
def Separated : List Line → Prop
  | [] => True
  | [_] => True
  | l :: l' :: ls => (l.statement.Bare → l'.names = []) ∧ Separated (l' :: ls)

section
variable {r : Registry} {l : Line}

theorem follows_equal {cs : List Char} {ws : List Word} (h : Emits cs ws) :
    Follows (' ' :: '=' :: ' ' :: cs) (.mark .equal :: ws) :=
  ((h.behind_space (c := ' ') rfl).emits.behind_mark (c := '=') rfl).emits.behind_space (c := ' ') rfl

theorem emits_text (h : l.Writable r) : Emits l.text.toList l.form.words := by
  have body := Statement.emits_text h.statement
  unfold text form LineSyntax.words
  cases hn : l.names with
  | nil => exact body
  | cons n ns =>
    have names := emits_intercalate (f := id) (w := fun n => [⟨.valueName, n⟩]) (n :: ns)
      fun m hm => emits_valueName (h.names m (hn ▸ hm))
    have := names.append (follows_equal body)
    simpa [LineSyntax.nameWords] using this

theorem states_form {env : ParserEnv} (hr : env.registry.Sound) (h : l.Writable env.registry) :
    l.form.States env none l.tupled := ⟨rfl, h.registered, Statement.states_form hr h.statement⟩

theorem firstKind_form (l : Line) (ws : List Word) (k : TokenKind) :
    firstKind (l.form.words ++ ws) k = if l.names = [] then .word else .valueName := by
  unfold form LineSyntax.words
  cases l.names <;> simp [LineSyntax.nameWords, listed_cons]

/-- Each of the lines ends where the next one starts if they are separated, and only then. -/
theorem apart_form_iff {ls : List Line} (h : ∀ l ∈ ls, l.Writable r) :
    Parser.Apart (ls.map fun l => (l.form, l.tupled)) ↔ Separated ls := by
  induction ls with
  | nil => exact Iff.rfl
  | cons l ls ih =>
    have rest := ih fun x hx => h x (List.mem_cons_of_mem _ hx)
    obtain ⟨named, word, last⟩ := Statement.openers_form (h l List.mem_cons_self).statement
    cases ls with
    | nil => exact ⟨fun _ => trivial, fun _ => ⟨last, trivial⟩⟩
    | cons l' ls =>
      refine and_congr ?_ rest
      rw [List.map_cons, List.flatMap_cons, firstKind_form]
      show _ ∉ l.statement.form.openers l.kind ↔ _
      by_cases hn : l'.names = []
      · rw [if_pos hn]; exact ⟨fun _ _ => hn, fun _ => word⟩
      · rw [if_neg hn, named]; exact ⟨fun hb hbare => absurd hbare hb, fun hb hbare => hn (hb hbare)⟩

end

end Line

/-! ## Modules -/

def moduleText (indent : Nat) (ls : List Line) : String :=
  "\n".intercalate (ls.map fun l => String.ofList (List.replicate indent ' ') ++ l.text)

theorem emits_indented {cs : List Char} {ws : List Word} (h : Emits cs ws) (indent : Nat) :
    Emits (List.replicate indent ' ' ++ cs) ws := by
  induction indent with
  | zero => exact h
  | succ n ih => exact (ih.behind_space (c := ' ') rfl).emits

theorem emits_moduleText {r : Registry} {ls : List Line} (h : ∀ l ∈ ls, l.Writable r) (indent : Nat) :
    Emits (moduleText indent ls).toList ((ls.map Line.form).flatMap LineSyntax.words) := by
  induction ls with
  | nil => exact .nil
  | cons l ls ih =>
    have first := emits_indented (l.emits_text (h l List.mem_cons_self)) indent
    have rest := ih fun x hx => h x (List.mem_cons_of_mem _ hx)
    cases ls with
    | nil => simpa [moduleText] using first
    | cons l' ls =>
      have := first.append (rest.behind_space (c := '\n') rfl)
      simpa [moduleText, String.intercalate_cons_cons] using this

end GateAsm
