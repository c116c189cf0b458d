import Mathlib.Data.List.Basic
import TypedL5.Datum.Reader

/-!
The grammar of data, and that the machine with a stack takes exactly the rows of tokens that it
derives:

    start       → datum*
    datum       → leaf | combination | quoted
    combination → ( datum* tail? ) | [ datum* ]
    tail        → . datum
    quoted      → ' datum
-/
namespace TypedL5

theorem except_bind_eq_ok {ε α β : Type} {x : Except ε α} {f : α → Except ε β} {b : β}
    (h : x >>= f = .ok b) : ∃ a, x = .ok a ∧ f a = .ok b := by
  cases x with
  | ok a => exact ⟨a, rfl, h⟩
  | error e => cases h

theorem except_bind_eq_error {ε α β : Type} {x : Except ε α} {f : α → Except ε β} {e : ε}
    (h : x >>= f = .error e) : x = .error e ∨ ∃ a, x = .ok a ∧ f a = .error e := by
  cases x with
  | ok a => exact .inr ⟨a, rfl, h⟩
  | error e' =>
    cases h
    exact .inl rfl

/-- A derivation of a datum, by the production at its root. -/
inductive Derivation where
  | leaf (l : Leaf)
  /-- Data in brackets, without a tail. -/
  | combination (b : Bracket) (items : List Derivation)
  /-- Data and a tail, in round brackets. -/
  | dotted (items : List Derivation) (tail : Derivation)
  | quoted (d : Derivation)

/-- Whether a datum may begin with the token. -/
def Token.startsDatum : Token → Bool
  | .leaf _ | .opening _ | .quote => true
  | _ => false

namespace Derivation

mutual

/-- The tokens that a derivation derives. -/
def word : Derivation → List Token
  | .leaf l => [.leaf l]
  | .combination b items => .opening b :: (words items ++ [.closing b])
  | .dotted items tail =>
    .opening .round :: (words items ++ .dot :: (tail.word ++ [.closing .round]))
  | .quoted d => .quote :: d.word

/-- The tokens that derivations derive from `start`. -/
def words : List Derivation → List Token
  | [] => []
  | d :: ds => d.word ++ words ds

end

mutual

/-- The structure that is left of a derivation without its brackets. -/
def tree : Derivation → Tree
  | .leaf l => .leaf l
  | .combination _ items => .list (trees items)
  | .dotted items tail => .dotted (trees items) tail.tree
  | .quoted d => .quoted d.tree

def trees : List Derivation → List Tree
  | [] => []
  | d :: ds => d.tree :: trees ds

end

mutual

/-- The datum of a derivation. The first fault is reported, from left to right and inner data
first. -/
def value : Derivation → Except ReadError Datum
  | .leaf l => l.datum
  | .combination _ items => do return .list (← values items)
  | .dotted items tail => do
    let before ← values items
    let last ← tail.value
    if items.isEmpty then throw .headless
    return .dotted before last
  | .quoted d => do return .list [.sym "quote", ← d.value]

def values : List Derivation → Except ReadError (List Datum)
  | [] => return []
  | d :: ds => do
    let first ← d.value
    return first :: (← values ds)

end

/-- The derivations in a list are reached by membership. -/
@[induction_eliminator]
theorem induction {motive : Derivation → Prop} (leaf : ∀ l, motive (.leaf l))
    (combination : ∀ b items, (∀ d ∈ items, motive d) → motive (.combination b items))
    (dotted : ∀ items tail, (∀ d ∈ items, motive d) → motive tail →
      motive (.dotted items tail))
    (quoted : ∀ d, motive d → motive (.quoted d)) (d : Derivation) : motive d := by
  refine (word.mutual_induct motive (fun ds => ∀ d ∈ ds, motive d) leaf combination
    dotted quoted ?_ ?_).1 d
  · intro d hd
    cases hd
  · intro d ds hd hds
    exact List.forall_mem_cons.mpr ⟨hd, hds⟩

variable {d d' : Derivation} {ds ds' items items' : List Derivation} {t t' : Token}
  {us us' : List Token}

theorem trees_eq_map (ds : List Derivation) : trees ds = ds.map tree := by
  induction ds with
  | nil => rfl
  | cons d ds ih => simp [trees, ih]

theorem words_eq_flatMap (ds : List Derivation) : words ds = ds.flatMap word := by
  induction ds with
  | nil => rfl
  | cons d ds ih => simp [words, ih]

theorem words_append (ds ds' : List Derivation) :
    words (ds ++ ds') = words ds ++ words ds' := by
  simp [words_eq_flatMap]

theorem words_singleton (d : Derivation) : words [d] = d.word := by
  simp [words]

theorem data_trees (h : ∀ d ∈ ds, d.tree.datum = d.value) :
    Tree.data (trees ds) = values ds := by
  induction ds with
  | nil => rfl
  | cons d ds ih =>
    obtain ⟨hd, hds⟩ := List.forall_mem_cons.mp h
    rw [trees, Tree.data, values, hd, ih hds]

theorem isEmpty_of_values {data : List Datum} (h : values ds = .ok data) :
    data.isEmpty = ds.isEmpty := by
  cases ds with
  | nil =>
    cases h
    rfl
  | cons d ds =>
    obtain ⟨first, _, h⟩ := except_bind_eq_ok h
    obtain ⟨rest, _, h⟩ := except_bind_eq_ok h
    cases h
    rfl

/-- The tree of a derivation stands for the datum of the derivation. -/
theorem datum_tree (d : Derivation) : d.tree.datum = d.value := by
  induction d with
  | leaf l => rfl
  | combination b items ih => rw [tree, Tree.datum, value, data_trees ih]
  | dotted items tail ihs ih =>
    rw [tree, Tree.datum, value, data_trees ihs, ih]
    cases hitems : values items with
    | error e => rfl
    | ok before =>
      cases tail.value with
      | error e => rfl
      | ok last =>
        simp only [bind, Except.bind, isEmpty_of_values hitems]
        split <;> rfl
  | quoted d ih => rw [tree, Tree.datum, value, ih]

/-- Every derivation has a token, and it is one that a datum may start with. -/
theorem exists_word_eq_cons (d : Derivation) :
    ∃ t ts, d.word = t :: ts ∧ t.startsDatum = true := by
  cases d with
  | leaf l => exact ⟨_, _, rfl, rfl⟩
  | combination b items => exact ⟨_, _, rfl, rfl⟩
  | dotted items tail => exact ⟨_, _, rfl, rfl⟩
  | quoted d => exact ⟨_, _, rfl, rfl⟩

/-- Two derivations of which neither derives more than a beginning of what the other derives
are one. -/
def Apart (d : Derivation) : Prop :=
  ∀ d' us us', d.word ++ us = d'.word ++ us' → d = d' ∧ us = us'

/-- A row of data ends where a token comes that no datum begins with. -/
theorem words_append_inj (h : ∀ d ∈ ds, d.Apart) (ht : t.startsDatum = false)
    (ht' : t'.startsDatum = false) (he : words ds ++ t :: us = words ds' ++ t' :: us') :
    ds = ds' ∧ t = t' ∧ us = us' := by
  induction ds generalizing ds' with
  -- If one row ends before the other, its end is the first token of a datum.
  | nil =>
    cases ds' with
    | nil => simpa [words] using he
    | cons d' ds' =>
      obtain ⟨first, rest, hword, hfirst⟩ := d'.exists_word_eq_cons
      simp only [words, hword, List.nil_append, List.cons_append, List.cons.injEq] at he
      rw [he.1, hfirst] at ht
      cases ht
  | cons d ds ih =>
    obtain ⟨hd, hds⟩ := List.forall_mem_cons.mp h
    cases ds' with
    | nil =>
      obtain ⟨first, rest, hword, hfirst⟩ := d.exists_word_eq_cons
      simp only [words, hword, List.nil_append, List.cons_append, List.cons.injEq] at he
      rw [← he.1, hfirst] at ht'
      cases ht'
    | cons d' ds' =>
      simp only [words, List.append_assoc] at he
      obtain ⟨rfl, hrest⟩ := hd d' _ _ he
      obtain ⟨rfl, htokens⟩ := ih hds hrest
      exact ⟨rfl, htokens⟩

/-- A derivation can be taken off the front of its tokens in one way only. -/
theorem apart (d : Derivation) : d.Apart := by
  induction d with
  | leaf l =>
    intro d' us us' he
    cases d' <;> simp [word] at he
    simpa using he
  | combination b items ih =>
    intro d' us us' he
    cases d' with
    | leaf l => simp [word] at he
    | quoted d' => simp [word] at he
    | combination b' items' =>
      simp only [word, List.cons_append, List.cons.injEq, Token.opening.injEq,
        List.append_assoc, List.nil_append] at he
      obtain ⟨rfl, he⟩ := he
      obtain ⟨rfl, _, rfl⟩ := words_append_inj ih rfl rfl he
      exact ⟨rfl, rfl⟩
    | dotted items' tail' =>
      simp only [word, List.cons_append, List.cons.injEq, List.append_assoc,
        List.nil_append] at he
      -- One row ends at a bracket and the other at a point.
      obtain ⟨_, hclosing, _⟩ := words_append_inj ih rfl rfl he.2
      cases hclosing
  | dotted items tail ihs ih =>
    intro d' us us' he
    cases d' with
    | leaf l => simp [word] at he
    | quoted d' => simp [word] at he
    | combination b' items' =>
      simp only [word, List.cons_append, List.cons.injEq, List.append_assoc,
        List.nil_append] at he
      obtain ⟨_, hdot, _⟩ := words_append_inj ihs rfl rfl he.2
      cases hdot
    | dotted items' tail' =>
      simp only [word, List.cons_append, List.cons.injEq, List.append_assoc,
        List.nil_append] at he
      obtain ⟨rfl, _, he⟩ := words_append_inj ihs rfl rfl he.2
      obtain ⟨rfl, he⟩ := ih _ _ _ he
      exact ⟨rfl, by simpa using he⟩
  | quoted d ih =>
    intro d' us us' he
    cases d' with
    | leaf l => simp [word] at he
    | combination b' items' => simp [word] at he
    | dotted items' tail' => simp [word] at he
    | quoted d' =>
      simp only [word, List.cons_append, List.cons.injEq, true_and] at he
      obtain ⟨rfl, rfl⟩ := ih _ _ _ he
      exact ⟨rfl, rfl⟩

/-- The grammar is unambiguous. -/
theorem words_injective : Function.Injective words := by
  intro ds ds' he
  -- A token that begins no datum shows where the last one ends.
  have hend : words ds ++ [.dot] = words ds' ++ [.dot] := by rw [he]
  exact (words_append_inj (fun d _ => d.apart) rfl rfl hend).1

end Derivation

/-- The grammar derives the tokens from `start`. -/
def Derivable (ts : List Token) : Prop := ∃ ds, Derivation.words ds = ts

/-- The grammar derives some tokens that begin with these. -/
def Viable (ts : List Token) : Prop := ∃ us, Derivable (ts ++ us)

theorem Viable.of_append {ts us : List Token} (h : Viable (ts ++ us)) : Viable ts := by
  obtain ⟨vs, h⟩ := h
  exact ⟨us ++ vs, by rwa [← List.append_assoc]⟩

namespace Tree

namespace Stack

/-- The innermost open form takes another tree. -/
def Open : List Frame → Prop
  | .afterTail _ _ :: _ => False
  | _ => True

/-- What a stack can become when it takes a token. -/
inductive Takes : Stack → Token → Stack → Prop
  | leaf {frames : List Frame} {trees : List Tree} (h : Open frames) (l : Leaf) :
    Takes ⟨frames, trees⟩ (.leaf l) (push trees (.leaf l) frames)
  | opening {frames : List Frame} {trees : List Tree} (h : Open frames) (b : Bracket) :
    Takes ⟨frames, trees⟩ (.opening b) ⟨.items b [] :: frames, trees⟩
  | quote {frames : List Frame} {trees : List Tree} (h : Open frames) :
    Takes ⟨frames, trees⟩ .quote ⟨.quote :: frames, trees⟩
  | dot (items : List Tree) (frames : List Frame) (trees : List Tree) :
    Takes ⟨.items .round items :: frames, trees⟩ .dot ⟨.beforeTail items :: frames, trees⟩
  | closing (b : Bracket) (items : List Tree) (frames : List Frame) (trees : List Tree) :
    Takes ⟨.items b items :: frames, trees⟩ (.closing b)
      (push trees (.list items.reverse) frames)
  | closingTail (items : List Tree) (tail : Tree) (frames : List Frame) (trees : List Tree) :
    Takes ⟨.afterTail items tail :: frames, trees⟩ (.closing .round)
      (push trees (.dotted items.reverse tail) frames)

variable {frames : List Frame} {trees items : List Tree} {s s' : Stack} {t : Token}
  {ts us vs : List Token}

theorem open_of_ne (h : ∀ items tail rest, frames ≠ .afterTail items tail :: rest) :
    Open frames := by
  cases frames with
  | nil => trivial
  | cons f frames =>
    cases f with
    | afterTail items tail => exact h items tail frames rfl
    | items b items => trivial
    | beforeTail items => trivial
    | quote => trivial

theorem step?_open (h : Open frames) :
    (∀ l, step? ⟨frames, trees⟩ (.leaf l) = some (push trees (.leaf l) frames)) ∧
      (∀ b, step? ⟨frames, trees⟩ (.opening b) = some ⟨.items b [] :: frames, trees⟩) ∧
      step? ⟨frames, trees⟩ .quote = some ⟨.quote :: frames, trees⟩ := by
  cases frames with
  | nil => exact ⟨fun _ => rfl, fun _ => rfl, rfl⟩
  | cons f frames =>
    cases f with
    | afterTail ts tail => exact h.elim
    | items b ts => exact ⟨fun _ => rfl, fun _ => rfl, rfl⟩
    | beforeTail ts => exact ⟨fun _ => rfl, fun _ => rfl, rfl⟩
    | quote => exact ⟨fun _ => rfl, fun _ => rfl, rfl⟩

/-- The relation between stacks is what the machine does. -/
theorem Takes.step? (h : Takes s t s') : s.step? t = some s' := by
  cases h with
  | leaf h l => exact (step?_open h).1 l
  | opening h b => exact (step?_open h).2.1 b
  | quote h => exact (step?_open h).2.2
  | dot => rfl
  | closing b => cases b <;> rfl
  | closingTail => rfl

/-- The machine takes no steps but those of the relation. -/
theorem takes_of_step? (h : s.step? t = some s') : Takes s t s' := by
  obtain ⟨frames, trees⟩ := s
  unfold Stack.step? at h
  split at h
  · rename_i items tail rest he
    obtain rfl : frames = .afterTail items tail :: rest := he
    cases h
    exact .closingTail _ _ _ _
  · cases h
  · cases h
    exact .leaf (open_of_ne ‹_›) _
  · cases h
    exact .opening (open_of_ne ‹_›) _
  · cases h
    exact .quote (open_of_ne ‹_›)
  · rename_i items rest he
    obtain rfl : frames = .items .round items :: rest := he
    cases h
    exact .dot _ _ _
  · rename_i b items rest b' he
    obtain rfl : frames = .items b items :: rest := he
    split at h
    · rename_i hb
      cases h
      exact hb ▸ .closing _ _ _ _
    · cases h
  · cases h

/-- Takes tokens one after the other. -/
def run (ts : List Token) (s : Stack) : Option Stack := ts.foldlM step? s

theorem run_cons (t : Token) (ts : List Token) (s : Stack) :
    run (t :: ts) s = (s.step? t).bind (run ts) := rfl

theorem run_append (ts us : List Token) (s : Stack) :
    run (ts ++ us) s = (run ts s).bind (run us) :=
  List.foldlM_append

theorem run_singleton (t : Token) (s : Stack) : run [t] s = s.step? t := by
  rw [run_cons]
  cases s.step? t <;> rfl

theorem run_takes (h : Takes s t s') (ts : List Token) : run (t :: ts) s = run ts s' := by
  rw [run_cons, h.step?, Option.bind_some]

/-- A sequence of derivations is taken one by one, each onto the list that is open. -/
theorem run_words {ds : List Derivation} (b : Bracket)
    (frames : List Frame) (trees acc : List Tree) (h : ∀ d ∈ ds, ∀ frames trees, Open frames →
    run d.word ⟨frames, trees⟩ = some (push trees d.tree frames)) :
    
    run (Derivation.words ds) ⟨.items b acc :: frames, trees⟩ =
      some ⟨.items b ((Derivation.trees ds).reverse ++ acc) :: frames, trees⟩ := by
  induction ds generalizing acc with
  | nil => rfl
  | cons d ds ih =>
    obtain ⟨hd, hds⟩ := List.forall_mem_cons.mp h
    have hfirst := hd (.items b acc :: frames) trees trivial
    rw [Derivation.words, run_append, hfirst, Option.bind_some, push, ih _ hds]
    simp [Derivation.trees]

/-- The tokens of a derivation add its tree to the innermost open form. -/
theorem run_word (d : Derivation) (frames : List Frame) (trees : List Tree) (h : Open frames) :
    run d.word ⟨frames, trees⟩ = some (push trees d.tree frames) := by
  induction d generalizing frames trees with
  | leaf l => exact run_takes (.leaf h l) []
  | combination b items ih =>
    have hitems := run_words b frames trees [] ih
    rw [Derivation.word, run_takes (.opening h b), run_append, hitems, Option.bind_some,
      List.append_nil, run_takes (.closing _ _ _ _), List.reverse_reverse]
    rfl
  | dotted items tail ihs ih =>
    have hitems := run_words .round frames trees [] ihs
    have htail := ih (.beforeTail (Derivation.trees items).reverse :: frames) trees trivial
    rw [Derivation.word, run_takes (.opening h .round), run_append, hitems, Option.bind_some,
      List.append_nil, run_takes (.dot _ _ _), run_append, htail, Option.bind_some, push,
      run_takes (.closingTail _ _ _ _), List.reverse_reverse]
    rfl
  | quoted d ih =>
    have hquoted := ih (.quote :: frames) trees trivial
    rw [Derivation.word, run_takes (.quote h), hquoted, push]
    rfl

/-- From an empty stack, the machine finds the trees of a sequence of derivations. -/
theorem run_start (ds : List Derivation) (trees : List Tree) :
    run (Derivation.words ds) ⟨[], trees⟩ =
      some ⟨[], (Derivation.trees ds).reverse ++ trees⟩ := by
  induction ds generalizing trees with
  | nil => rfl
  | cons d ds ih =>
    rw [Derivation.words, run_append, run_word d [] trees trivial, Option.bind_some, push, ih]
    simp [Derivation.trees]

end Stack

/-- The tokens that an open form has taken so far. -/
inductive Frame.Took : Frame → List Token → Prop
  | items (b : Bracket) (ds : List Derivation) :
    Took (.items b (Derivation.trees ds).reverse) (.opening b :: Derivation.words ds)
  | beforeTail (ds : List Derivation) :
    Took (.beforeTail (Derivation.trees ds).reverse)
      (.opening .round :: (Derivation.words ds ++ [.dot]))
  | afterTail (ds : List Derivation) (d : Derivation) :
    Took (.afterTail (Derivation.trees ds).reverse d.tree)
      (.opening .round :: (Derivation.words ds ++ .dot :: d.word))
  | quote : Took .quote [.quote]

namespace Stack

variable {frames : List Frame} {trees : List Tree} {s s' : Stack} {t : Token}
  {ts us vs : List Token}

/-- The tokens that a stack has taken so far. Only the innermost form may be complete but for
its bracket. -/
inductive Took : Stack → List Token → Prop
  | start (ds : List Derivation) :
    Took ⟨[], (Derivation.trees ds).reverse⟩ (Derivation.words ds)
  | frame {f : Frame} {frames : List Frame} {trees : List Tree} {us vs : List Token}
    (h : Took ⟨frames, trees⟩ us) (hopen : Open frames) (hf : f.Took vs) :
    Took ⟨f :: frames, trees⟩ (us ++ vs)

/-- A whole datum goes into the frame that is open, and what has been taken grows by its word.
-/
theorem Took.push (h : Took ⟨frames, trees⟩ us) (hopen : Open frames) (d : Derivation) :
    Took (push trees d.tree frames) (us ++ d.word) := by
  induction frames generalizing us d with
  | nil =>
    cases h with
    | start ds =>
      have hnext := Took.start (ds ++ [d])
      simpa [Derivation.trees_eq_map, Derivation.words_append, Derivation.words_singleton,
        Stack.push] using hnext
  | cons f frames ih =>
    cases h with
    | frame h hopen' hf =>
      cases hf with
      | items b ds =>
        have hnext := Took.frame h hopen' (.items b (ds ++ [d]))
        simpa [Derivation.trees_eq_map, Derivation.words_append, Derivation.words_singleton,
          Stack.push] using hnext
      | beforeTail ds =>
        have hnext := Took.frame h hopen' (.afterTail ds d)
        simpa [Stack.push] using hnext
      | afterTail ds d' => exact hopen.elim
      | quote =>
        have hnext := ih h hopen' (.quoted d)
        simpa [Stack.push, Derivation.word, Derivation.tree] using hnext

/-- Every token that is taken is accounted for by what is on the stack. -/
theorem Took.takes (h : Took s us) (ht : Takes s t s') : Took s' (us ++ [t]) := by
  cases ht with
  | leaf hopen l => exact h.push hopen (.leaf l)
  | opening hopen b => exact .frame h hopen (.items b [])
  | quote hopen => exact .frame h hopen .quote
  | dot items frames trees =>
    cases h with
    | frame h hopen hf =>
      cases hf with
      | items b ds =>
        have hnext := Took.frame h hopen (.beforeTail ds)
        simpa using hnext
  | closing b items frames trees =>
    cases h with
    | frame h hopen hf =>
      cases hf with
      | items b ds =>
        have hnext := h.push hopen (.combination b ds)
        simpa [Derivation.word, Derivation.tree] using hnext
  | closingTail items tail frames trees =>
    cases h with
    | frame h hopen hf =>
      cases hf with
      | afterTail ds d =>
        have hnext := h.push hopen (.dotted ds d)
        simpa [Derivation.word, Derivation.tree] using hnext

/-- What is on the stack after a run accounts for all the tokens of the run. -/
theorem Took.run (h : Took s us) (hr : run ts s = some s') : Took s' (us ++ ts) := by
  induction ts generalizing s us with
  | nil =>
    cases hr
    simpa using h
  | cons t ts ih =>
    rw [run_cons] at hr
    obtain ⟨m, hm, hr⟩ := Option.bind_eq_some_iff.mp hr
    simpa using ih (h.takes (takes_of_step? hm)) hr

/-- The brackets that are still to come, with all quotes and tails complete. -/
def brackets : List Frame → List Token
  | [] => []
  | .items b _ :: frames => .closing b :: brackets frames
  | .beforeTail _ :: frames | .afterTail _ _ :: frames => .closing .round :: brackets frames
  | .quote :: frames => brackets frames

/-- Closing brackets empty the stack once the innermost frame has a datum to close on. -/
theorem run_brackets (frames : List Frame) (trees : List Tree) (t : Tree) :
    ∃ trees', run (brackets frames) (push trees t frames) = some ⟨[], trees'⟩ := by
  induction frames generalizing t with
  | nil => exact ⟨_, rfl⟩
  | cons f frames ih =>
    cases f with
    | items b items => simpa only [brackets, push, run_takes (.closing _ _ _ _)] using ih _
    | beforeTail items =>
      simpa only [brackets, push, run_takes (.closingTail _ _ _ _)] using ih _
    | afterTail items tail =>
      simpa only [brackets, push, run_takes (.closingTail _ _ _ _)] using ih _
    | quote => simpa only [brackets, push] using ih _

/-- A datum must come next. -/
def awaitsDatum : List Frame → Bool
  | .beforeTail _ :: _ | .quote :: _ => true
  | _ => false

/-- Tokens with which all open forms are complete. -/
def completion (frames : List Frame) : List Token :=
  if awaitsDatum frames then .leaf (.symbol "x") :: brackets frames else brackets frames

/-- Whatever is on the stack, there are tokens that complete it. -/
theorem run_completion (s : Stack) :
    ∃ trees, run (completion s.frames) s = some ⟨[], trees⟩ := by
  obtain ⟨frames, trees⟩ := s
  cases frames with
  | nil => exact ⟨trees, rfl⟩
  | cons f frames =>
    cases f with
    | items b items =>
      simpa [completion, awaitsDatum, brackets, run_takes (.closing _ _ _ _)] using
        run_brackets frames trees _
    | afterTail items tail =>
      simpa [completion, awaitsDatum, brackets, run_takes (.closingTail _ _ _ _)] using
        run_brackets frames trees _
    | beforeTail items =>
      have hleaf : Open (.beforeTail items :: frames) := trivial
      simpa [completion, awaitsDatum, run_takes (.leaf hleaf _)] using
        run_brackets (.beforeTail items :: frames) trees (.leaf (.symbol "x"))
    | quote =>
      have hleaf : Open (.quote :: frames) := trivial
      simpa [completion, awaitsDatum, run_takes (.leaf hleaf _)] using
        run_brackets (.quote :: frames) trees (.leaf (.symbol "x"))

/-- The machine ends without an open form exactly on what the grammar derives, with the trees
of the derivation. -/
theorem run_eq_some_iff {trees : List Tree} :
    run ts {} = some ⟨[], trees⟩ ↔ ∃ ds, Derivation.words ds = ts ∧
      trees.reverse = Derivation.trees ds := by
  constructor
  · intro h
    have htook := (Took.start []).run h
    generalize hs : Stack.mk [] trees = s at htook
    generalize hus : Derivation.words [] ++ ts = us at htook
    cases htook with
    | start ds =>
      cases hs
      exact ⟨ds, hus.symm, List.reverse_reverse _⟩
    | frame => cases hs
  · rintro ⟨ds, rfl, htrees⟩
    have hrun := run_start ds []
    rw [List.append_nil, ← htrees, List.reverse_reverse] at hrun
    exact hrun

/-- The machine goes on as long as the grammar does. -/
theorem viable_iff : Viable ts ↔ ∃ s, run ts {} = some s := by
  constructor
  · rintro ⟨us, ds, hds⟩
    have hrun := run_start ds []
    rw [hds, run_append] at hrun
    obtain ⟨s, hs, _⟩ := Option.bind_eq_some_iff.mp hrun
    exact ⟨s, hs⟩
  · rintro ⟨s, hs⟩
    obtain ⟨trees, htrees⟩ := run_completion s
    have hrun : run (ts ++ completion s.frames) {} = some ⟨[], trees⟩ := by
      rw [run_append, hs, Option.bind_some, htrees]
    obtain ⟨ds, hds, _⟩ := run_eq_some_iff.mp hrun
    exact ⟨completion s.frames, ds, hds⟩

end Stack

variable {stuck? : Option Position} {s s' : Stack} {ts : List Located}

theorem ofTokens_of_run (h : Stack.run (ts.map Located.token) s = some s') :
    ofTokens stuck? ts s = ofTokens stuck? [] s' := by
  induction ts generalizing s with
  | nil =>
    cases h
    rfl
  | cons t ts ih =>
    rw [List.map_cons, Stack.run_cons] at h
    obtain ⟨m, hm, hrun⟩ := Option.bind_eq_some_iff.mp h
    rw [ofTokens, hm]
    exact ih hrun

/-- The first token that the machine does not take is reported, with its place. -/
theorem ofTokens_of_refused (h : Stack.run (ts.map Located.token) s = none) :
    ∃ pre t post m, ts = pre ++ t :: post ∧ Stack.run (pre.map Located.token) s = some m ∧
      m.step? t.token = none ∧
      ∀ stuck?, ofTokens stuck? ts s = .error (.unexpectedToken t.token.text t.position) := by
  induction ts generalizing s with
  | nil => cases h
  | cons t ts ih =>
    rw [List.map_cons, Stack.run_cons] at h
    cases hm : s.step? t.token with
    | none =>
      refine ⟨[], t, ts, s, rfl, rfl, hm, fun stuck? => ?_⟩
      rw [ofTokens, hm]
    | some m =>
      rw [hm, Option.bind_some] at h
      obtain ⟨pre, t', post, m', hts, hrun, hrefused, herror⟩ := ih h
      refine ⟨t :: pre, t', post, m', by rw [hts, List.cons_append], ?_, hrefused,
        fun stuck? => ?_⟩
      · rw [List.map_cons, Stack.run_cons, hm, Option.bind_some, hrun]
      · rw [ofTokens, hm]
        exact herror stuck?

/-- Tokens are read as the trees of their derivation. -/
theorem ofTokens_eq_ok_iff {trees : List Tree} : ofTokens none ts {} = .ok trees ↔
    ∃ ds, Derivation.words ds = ts.map Located.token ∧ trees = Derivation.trees ds := by
  constructor
  · intro h
    cases hrun : Stack.run (ts.map Located.token) {} with
    | none =>
      obtain ⟨_, _, _, _, _, _, _, herror⟩ := ofTokens_of_refused hrun
      rw [herror none] at h
      cases h
    | some m =>
      obtain ⟨frames, acc⟩ := m
      rw [ofTokens_of_run hrun] at h
      cases frames with
      | nil =>
        cases h
        exact Stack.run_eq_some_iff.mp hrun
      | cons f frames => cases h
  · rintro ⟨ds, hds, rfl⟩
    have hrun : Stack.run (ts.map Located.token) {} =
      some ⟨[], (Derivation.trees ds).reverse⟩ :=
      Stack.run_eq_some_iff.mpr ⟨ds, hds, List.reverse_reverse _⟩
    rw [ofTokens_of_run hrun]
    exact congrArg Except.ok (List.reverse_reverse _)

end Tree

end TypedL5
