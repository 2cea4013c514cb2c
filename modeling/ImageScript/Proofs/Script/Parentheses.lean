import ImageScript.Proofs.Script.Grammar
import ImageScript.Proofs.Script.Spelling

/-!
# The parentheses of a call

A call ends with the parenthesis that closes it: between this one and the one that opens the call
every parenthesis is closed. The tokens between them are the arguments of the call, divided at each
comma that stands in no further parentheses. A reader that takes the tokens one by one keeps nothing
but the number of parentheses that stand open, and this number is never below zero.

Main statements: `CallArguments.read?_eq_some_iff`, `CallArguments.isSome_read?_iff`,
`CallArguments.counts_taken`, `CallArguments.arguments_matched`.
-/

namespace ImageScript

namespace CallArguments

open Grammar (Joined)

/-- Whether each parenthesis that some tokens open is closed by them, and none besides. -/
inductive Enclosed : List Token → Prop where
  | nil : Enclosed []
  | plain {t : Token} {ts : List Token} (not_opening : t.is "(" = false)
      (not_closing : t.is ")" = false) (later : Enclosed ts) : Enclosed (t :: ts)
  | nested {opening close : Token} {us ts : List Token} (opening_sign : opening.is "(" = true)
      (inner : Enclosed us) (close_sign : close.is ")" = true) (later : Enclosed ts) :
      Enclosed (opening :: (us ++ close :: ts))

/-- Whether some tokens are one argument: each parenthesis among them is closed, and no comma stands
outside of these. -/
inductive Undivided : List Token → Prop where
  | nil : Undivided []
  | plain {t : Token} {ts : List Token} (not_opening : t.is "(" = false)
      (not_closing : t.is ")" = false) (not_comma : t.is "," = false) (later : Undivided ts) :
      Undivided (t :: ts)
  | nested {opening close : Token} {us ts : List Token} (opening_sign : opening.is "(" = true)
      (inner : Enclosed us) (close_sign : close.is ")" = true) (later : Undivided ts) :
      Undivided (opening :: (us ++ close :: ts))

/-- Whether some tokens are arguments with a comma between each two of them. -/
structure Divides (groups : List (List Token)) (us : List Token) : Prop where
  joined : Joined groups us
  undivided : ∀ g ∈ groups, Undivided g

theorem Enclosed.append {us vs : List Token} (hus : Enclosed us) (hvs : Enclosed vs) :
    Enclosed (us ++ vs) := by
  induction hus with
  | nil => exact hvs
  | plain not_opening not_closing later ih => exact .plain not_opening not_closing ih
  | nested opening_sign inner close_sign later ihinner ih =>
    rw [List.cons_append, List.append_assoc, List.cons_append]
    exact .nested opening_sign inner close_sign ih

theorem Undivided.enclosed {us : List Token} (h : Undivided us) : Enclosed us := by
  induction h with
  | nil => exact .nil
  | plain not_opening not_closing not_comma later ih => exact .plain not_opening not_closing ih
  | nested opening_sign inner close_sign later ih => exact .nested opening_sign inner close_sign ih

/-- Arguments close what they open, and so do all of them together. -/
theorem Divides.enclosed {groups : List (List Token)} {us : List Token} (h : Divides groups us) :
    Enclosed us := by
  obtain ⟨joined, undivided⟩ := h
  induction joined with
  | none => exact .nil
  | last us => exact (undivided us List.mem_cons_self).enclosed
  | more first sign later ih =>
    have hlater := ih fun g hg => undivided g (List.mem_cons_of_mem first hg)
    refine (undivided first List.mem_cons_self).enclosed.append (.plain ?_ ?_ hlater)
    · exact Token.is_eq_false sign (by decide)
    · exact Token.is_eq_false sign (by decide)

/-- Tokens in front belong to the first argument. -/
theorem Divides.prepend {head : List Token} {others : List (List Token)} {us vs : List Token}
    (h : Divides (head :: others) us) (hhead : Undivided (vs ++ head)) :
    Divides ((vs ++ head) :: others) (vs ++ us) := by
  obtain ⟨joined, undivided⟩ := h
  refine ⟨?_, ?_⟩
  · cases joined with
    | last => exact .last _
    | more _ sign later =>
      rw [← List.append_assoc]
      exact .more _ sign later
  · intro g hg
    rcases List.mem_cons.1 hg with rfl | hg
    · exact hhead
    · exact undivided g (List.mem_cons_of_mem head hg)

/-- Whatever closes its parentheses is divided at its commas in some way. -/
theorem Enclosed.exists_divides {us : List Token} (h : Enclosed us) :
    ∃ head others, Divides (head :: others) us := by
  induction h with
  | nil => exact ⟨[], [], .last [], by simpa using Undivided.nil⟩
  | @plain t ts not_opening not_closing later ih =>
    obtain ⟨head, others, hdivides⟩ := ih
    by_cases hcomma : t.is "," = true
    · refine ⟨[], head :: others, .more [] hcomma hdivides.joined, ?_⟩
      simpa using ⟨Undivided.nil, by simpa using hdivides.undivided⟩
    · have hhead : Undivided ([t] ++ head) := .plain not_opening not_closing
        (Bool.eq_false_iff.2 hcomma) (hdivides.undivided head List.mem_cons_self)
      exact ⟨_, _, hdivides.prepend hhead⟩
  | @nested opening close us ts opening_sign inner close_sign later ihinner ih =>
    obtain ⟨head, others, hdivides⟩ := ih
    have hnested := Undivided.nested opening_sign inner close_sign
      (hdivides.undivided head List.mem_cons_self)
    have hhead : Undivided ((opening :: (us ++ [close])) ++ head) := by simpa using hnested
    exact ⟨_, others, by simpa using hdivides.prepend hhead⟩

/-! ### One token after the other -/

/-- What a token is for a call in which `k` further parentheses stand open. -/
inductive Role : Nat → Token → Prop where
  | ends {t : Token} (closing : t.is ")" = true) : Role 0 t
  | divides {t : Token} (comma : t.is "," = true) : Role 0 t
  | opens {t : Token} (k : Nat) (opening : t.is "(" = true) : Role k t
  | closes {t : Token} (k : Nat) (closing : t.is ")" = true) : Role (k + 1) t
  | other {t : Token} (k : Nat) (not_opening : t.is "(" = false) (not_closing : t.is ")" = false)
      (not_comma : t.is "," = false ∨ k ≠ 0) : Role k t

theorem role (k : Nat) (t : Token) : Role k t := by
  by_cases hopening : t.is "(" = true
  · exact .opens k hopening
  by_cases hclosing : t.is ")" = true
  · cases k with
    | zero => exact .ends hclosing
    | succ k => exact .closes k hclosing
  by_cases hcomma : t.is "," = true ∧ k = 0
  · obtain ⟨hcomma, rfl⟩ := hcomma
    exact .divides hcomma
  · refine .other k (Bool.eq_false_iff.2 hopening) (Bool.eq_false_iff.2 hclosing) ?_
    by_cases hk : k = 0
    · exact Or.inl (Bool.eq_false_iff.2 fun h => hcomma ⟨h, hk⟩)
    · exact Or.inr hk

/-- A token more at the head of the first group. -/
def Tail.push (t : Token) (r : Tail) : Tail := { r with head := t :: r.head }

/-- Where a call ends. -/
def Tail.ending (r : Tail) : Token × List Token := (r.close, r.rest)

section

variable {t : Token} {k : Nat} {ts : List Token}

theorem readTail?_opening (h : t.is "(" = true) :
    readTail? k (t :: ts) = (readTail? (k + 1) ts).map (Tail.push t) := by
  have hclosing := Token.is_eq_false h (show "(" ≠ ")" by decide)
  have hcomma := Token.is_eq_false h (show "(" ≠ "," by decide)
  rw [readTail?]
  simp only [h, hclosing, hcomma, Bool.false_eq_true, false_and, if_false, if_true]
  rfl

theorem readTail?_closing (h : t.is ")" = true) :
    readTail? (k + 1) (t :: ts) = (readTail? k ts).map (Tail.push t) := by
  have hopening := Token.is_eq_false h (show ")" ≠ "(" by decide)
  have hcomma := Token.is_eq_false h (show ")" ≠ "," by decide)
  rw [readTail?]
  simp only [h, hopening, hcomma, Bool.false_eq_true, false_and, if_false, if_true]
  rfl

theorem readTail?_other (hopening : t.is "(" = false) (hclosing : t.is ")" = false)
    (hcomma : t.is "," = false ∨ k ≠ 0) :
    readTail? k (t :: ts) = (readTail? k ts).map (Tail.push t) := by
  have hno : ¬ (t.is "," = true ∧ k = 0) := by
    rintro ⟨h, hk⟩
    rcases hcomma with hcomma | hcomma
    · simp [hcomma] at h
    · exact hcomma hk
  rw [readTail?]
  simp only [hopening, hclosing, hno, Bool.false_eq_true, false_and, if_false]
  rfl

end

/-! ### What is read divides the call -/

/-- Whether some tokens close `k` parentheses that stand open before them, and are an argument
behind these. -/
inductive Leaves : Nat → List Token → Prop where
  | none {us : List Token} (undivided : Undivided us) : Leaves 0 us
  | one {k : Nat} {close : Token} {us vs : List Token} (enclosed : Enclosed us)
      (close_sign : close.is ")" = true) (later : Leaves k vs) : Leaves (k + 1) (us ++ close :: vs)

namespace Leaves

variable {k : Nat} {t : Token} {us : List Token}

theorem plain (h : Leaves k us) (hopening : t.is "(" = false) (hclosing : t.is ")" = false)
    (hcomma : t.is "," = false ∨ k ≠ 0) : Leaves k (t :: us) := by
  cases h with
  | none undivided =>
    exact .none (.plain hopening hclosing (hcomma.resolve_right fun h => h rfl) undivided)
  | one enclosed close_sign later => exact .one (.plain hopening hclosing enclosed) close_sign later

theorem opening (h : Leaves (k + 1) us) (hopening : t.is "(" = true) : Leaves k (t :: us) := by
  cases h with
  | one inner close_sign later =>
    cases later with
    | none undivided => exact .none (.nested hopening inner close_sign undivided)
    | @one k close' us' vs enclosed close_sign' later =>
      have h := Leaves.one (.nested hopening inner close_sign enclosed) close_sign' later
      simpa using h

end Leaves

/-- The first group that is read closes the parentheses that stand open; it and the others are
arguments. -/
theorem leaves_of_readTail? {k : Nat} {ts : List Token} {r : Tail} (h : readTail? k ts = some r) :
    Leaves k r.head ∧ ∀ g ∈ r.others, Undivided g := by
  induction ts generalizing k r with
  | nil => simp [readTail?] at h
  | cons t ts ih =>
    cases role k t with
    | ends closing =>
      rw [readTail?_close closing] at h
      obtain rfl := Option.some.inj h
      exact ⟨.none .nil, fun g hg => absurd hg List.not_mem_nil⟩
    | divides comma =>
      rw [readTail?_comma comma] at h
      obtain ⟨r, hr, rfl⟩ := Option.map_eq_some_iff.1 h
      obtain ⟨hhead, hothers⟩ := ih hr
      cases hhead with
      | none undivided => exact ⟨.none .nil, by simpa using ⟨undivided, hothers⟩⟩
    | opens k opening =>
      rw [readTail?_opening opening] at h
      obtain ⟨r, hr, rfl⟩ := Option.map_eq_some_iff.1 h
      obtain ⟨hhead, hothers⟩ := ih hr
      exact ⟨hhead.opening opening, hothers⟩
    | closes k closing =>
      rw [readTail?_closing closing] at h
      obtain ⟨r, hr, rfl⟩ := Option.map_eq_some_iff.1 h
      obtain ⟨hhead, hothers⟩ := ih hr
      exact ⟨.one .nil closing hhead, hothers⟩
    | other k not_opening not_closing not_comma =>
      rw [readTail?_other not_opening not_closing not_comma] at h
      obtain ⟨r, hr, rfl⟩ := Option.map_eq_some_iff.1 h
      obtain ⟨hhead, hothers⟩ := ih hr
      exact ⟨hhead.plain not_opening not_closing not_comma, hothers⟩

end CallArguments

namespace Grammar

/-- What stands before the end of a call are its groups, joined by commas. -/
theorem joined_of_readTail? {depth : Nat} {ts : List Token} {r : CallArguments.Tail}
    (h : CallArguments.readTail? depth ts = some r) : ∃ args, ts = args ++ r.close :: r.rest
      ∧ r.close.is ")" = true ∧ Joined (r.head :: r.others) args := by
  induction ts generalizing depth r with
  | nil => simp [CallArguments.readTail?] at h
  | cons t ts ih =>
    simp only [CallArguments.readTail?] at h
    split at h
    · next hclose =>
      obtain rfl := Option.some.inj h
      exact ⟨[], rfl, hclose.1, .last []⟩
    · split at h
      · next hcomma =>
        obtain ⟨r, hr, rfl⟩ := Option.map_eq_some_iff.1 h
        obtain ⟨args, rfl, hclose, hjoined⟩ := ih hr
        exact ⟨t :: args, rfl, hclose, .more [] hcomma.1 hjoined⟩
      · obtain ⟨r, hr, rfl⟩ := Option.map_eq_some_iff.1 h
        obtain ⟨args, rfl, hclose, hjoined⟩ := ih hr
        refine ⟨t :: args, rfl, hclose, ?_⟩
        dsimp only
        generalize r.head = head, r.others = others at hjoined
        cases hjoined with
        | last => exact .last _
        | more _ sign later => exact .more (t :: head) sign later

end Grammar

namespace CallArguments

open Grammar (Joined)

/-! ### What divides the call is read -/

/-- In further parentheses, what closes its own is taken as it is. -/
theorem Enclosed.readTail?_append {us : List Token} (h : Enclosed us) (k : Nat) (ts : List Token) :
    readTail? (k + 1) (us ++ ts) =
      (readTail? (k + 1) ts).map fun r => { r with head := us ++ r.head } := by
  induction h generalizing k ts with
  | nil => simp
  | plain not_opening not_closing later ih =>
    rw [List.cons_append, readTail?_other not_opening not_closing (Or.inr (Nat.succ_ne_zero k)), ih,
      Option.map_map]
    rfl
  | nested opening_sign inner close_sign later ihinner ih =>
    rw [List.cons_append, List.append_assoc, List.cons_append, readTail?_opening opening_sign,
      ihinner, readTail?_closing close_sign, ih]
    simp only [Option.map_map]
    congr 1
    funext r
    simp [Tail.push]

/-- An argument is taken as it is. -/
theorem Undivided.readTail?_append {us : List Token} (h : Undivided us) (ts : List Token) :
    readTail? 0 (us ++ ts) = (readTail? 0 ts).map fun r => { r with head := us ++ r.head } := by
  induction h with
  | nil => simp
  | plain not_opening not_closing not_comma later ih =>
    rw [List.cons_append, readTail?_other not_opening not_closing (Or.inl not_comma), ih,
      Option.map_map]
    rfl
  | nested opening_sign inner close_sign later ih =>
    rw [List.cons_append, List.append_assoc, List.cons_append, readTail?_opening opening_sign,
      inner.readTail?_append, readTail?_closing close_sign, ih]
    simp only [Option.map_map]
    congr 1
    funext r
    simp [Tail.push]

/-- Arguments that divide the tokens of a call are read as its groups. -/
theorem Divides.readTail?_eq {head us rest : List Token} {others : List (List Token)}
    {close : Token} (h : Divides (head :: others) us) (hclose : close.is ")" = true) :
    readTail? 0 (us ++ close :: rest) = some ⟨head, others, close, rest⟩ := by
  obtain ⟨joined, undivided⟩ := h
  generalize hgroups : head :: others = groups at joined undivided
  induction joined generalizing head others with
  | none => cases hgroups
  | last us =>
    obtain ⟨rfl, rfl⟩ := List.cons.inj hgroups
    rw [(undivided head List.mem_cons_self).readTail?_append, readTail?_close hclose]
    simp
  | more first sign later ih =>
    obtain ⟨rfl, rfl⟩ := List.cons.inj hgroups
    have hlater := ih rfl fun g hg => undivided g (List.mem_cons_of_mem head hg)
    rw [List.append_assoc, (undivided head List.mem_cons_self).readTail?_append, List.cons_append,
      readTail?_comma sign, hlater]
    simp

theorem joined_nil {head : List Token} {others : List (List Token)}
    (h : Joined (head :: others) []) : head = [] ∧ others = [] := by
  generalize hus : ([] : List Token) = us at h
  cases h with
  | last => exact ⟨rfl, rfl⟩
  | more => simp at hus

/-- A call is read exactly as its arguments divide it: those of an empty call are none, and those of
any other one are what its commas leave, empty ones among them. -/
theorem read?_eq_some_iff {ts : List Token} {groups : List (List Token)} {close : Token}
    {rest : List Token} : read? ts = some ⟨groups, close, rest⟩ ↔
      ∃ us, ts = us ++ close :: rest ∧ close.is ")" = true ∧ Divides groups us
        ∧ (groups = [] ↔ us = []) := by
  constructor
  · intro h
    obtain ⟨⟨head, others, close', rest'⟩, hr, heq⟩ := Option.map_eq_some_iff.1 h
    obtain ⟨rfl, rfl, rfl⟩ := CallArguments.mk.inj heq
    obtain ⟨us, hts, hclose, hjoined⟩ := Grammar.joined_of_readTail? hr
    obtain ⟨hhead, hothers⟩ := leaves_of_readTail? hr
    refine ⟨us, hts, hclose, ?_⟩
    cases hhead with
    | none undivided =>
      split
      · next hempty =>
        obtain ⟨rfl, rfl⟩ := hempty
        cases hjoined
        exact ⟨⟨.none, by simp⟩, by simp⟩
      · next hsome =>
        refine ⟨⟨hjoined, by simpa using ⟨undivided, hothers⟩⟩, by simp, ?_⟩
        rintro rfl
        exact absurd (joined_nil hjoined) hsome
  · rintro ⟨us, rfl, hclose, hdivides, hempty⟩
    cases groups with
    | nil =>
      obtain rfl := hempty.1 rfl
      rw [List.nil_append, read?, readTail?_close hclose]
      rfl
    | cons head others =>
      have hsome : ¬ (head = [] ∧ others = []) := by
        rintro ⟨rfl, rfl⟩
        cases hdivides.joined with
        | last => exact absurd (hempty.2 rfl) (List.cons_ne_nil _ _)
      rw [read?, hdivides.readTail?_eq hclose, Option.map_some, if_neg hsome]

/-- A call ends with the parenthesis that closes it. -/
theorem exists_enclosed_of_read? {ts : List Token} {a : CallArguments} (h : read? ts = some a) :
    ∃ us, ts = us ++ a.close :: a.rest ∧ Enclosed us ∧ a.close.is ")" = true := by
  obtain ⟨us, hts, hclose, hdivides, -⟩ := read?_eq_some_iff.1 h
  exact ⟨us, hts, hdivides.enclosed, hclose⟩

theorem read?_enclosed {us : List Token} {close : Token} (h : Enclosed us)
    (hclose : close.is ")" = true) (rest : List Token) :
    ∃ groups, read? (us ++ close :: rest) = some ⟨groups, close, rest⟩ := by
  obtain ⟨head, others, hdivides⟩ := h.exists_divides
  exact ⟨_, by rw [read?, hdivides.readTail?_eq hclose]; rfl⟩

/-- Whether some tokens hold the parenthesis that closes a call opened before them. -/
def Closes (ts : List Token) : Prop :=
  ∃ us close rest, ts = us ++ close :: rest ∧ Enclosed us ∧ close.is ")" = true

theorem isSome_read?_iff {ts : List Token} : (read? ts).isSome = true ↔ Closes ts := by
  constructor
  · intro h
    obtain ⟨a, ha⟩ := Option.isSome_iff_exists.1 h
    obtain ⟨us, hts, henclosed, hclose⟩ := exists_enclosed_of_read? ha
    exact ⟨us, a.close, a.rest, hts, henclosed, hclose⟩
  · rintro ⟨us, close, rest, rfl, henclosed, hclose⟩
    obtain ⟨groups, hread⟩ := read?_enclosed henclosed hclose rest
    rw [hread]
    rfl

/-- A call is never closed where no parenthesis closes it. -/
theorem read?_eq_none_iff {ts : List Token} : read? ts = none ↔
    ∀ us close rest, ts = us ++ close :: rest → Enclosed us → close.is ")" = false := by
  rw [← Option.not_isSome_iff_eq_none, isSome_read?_iff]
  constructor
  · intro h us close rest hts henclosed
    exact Bool.eq_false_iff.2 fun hclose => h ⟨us, close, rest, hts, henclosed, hclose⟩
  · rintro h ⟨us, close, rest, hts, henclosed, hclose⟩
    rw [h us close rest hts henclosed] at hclose
    cases hclose

/-! ### The count of open parentheses -/

/-- The number of parentheses that stand open behind a token, or nothing where the token ends the
call. It is a whole number, so that nothing but the tokens keeps it from falling below zero. -/
def count? (depth : Int) (t : Token) : Option Int :=
  if t.is ")" = true ∧ depth = 0 then none
  else some (if t.is "(" then depth + 1 else if t.is ")" then depth - 1 else depth)

/-- A token ends the call, or the reader goes on behind it with the count that it makes. -/
theorem ends_or_counts (k : Nat) (t : Token) :
    k = 0 ∧ t.is ")" = true ∨ ∃ (n : Nat) (f : Tail → Tail), count? (k : Int) t = some (n : Int)
      ∧ (∀ r, (f r).ending = r.ending) ∧ ∀ ts, readTail? k (t :: ts) = (readTail? n ts).map f := by
  cases role k t with
  | ends closing => exact Or.inl ⟨rfl, closing⟩
  | divides comma =>
    have hopening := Token.is_eq_false comma (show "," ≠ "(" by decide)
    have hclosing := Token.is_eq_false comma (show "," ≠ ")" by decide)
    have hcount : count? ((0 : Nat) : Int) t = some ((0 : Nat) : Int) := by
      simp [count?, hopening, hclosing]
    exact Or.inr ⟨0, fun r => { r with head := [], others := r.head :: r.others }, hcount,
      fun r => rfl, readTail?_comma comma⟩
  | opens k opening =>
    have hclosing := Token.is_eq_false opening (show "(" ≠ ")" by decide)
    have hcount : count? (k : Int) t = some ((k + 1 : Nat) : Int) := by
      simp [count?, opening, hclosing]
    exact Or.inr ⟨k + 1, Tail.push t, hcount, fun r => rfl, fun ts => readTail?_opening opening⟩
  | closes k closing =>
    have hopening := Token.is_eq_false closing (show ")" ≠ "(" by decide)
    have hcount : count? ((k + 1 : Nat) : Int) t = some (k : Int) := by
      have hne : (k : Int) + 1 ≠ 0 := by omega
      simp [count?, closing, hopening, hne]
    exact Or.inr ⟨k, Tail.push t, hcount, fun r => rfl, fun ts => readTail?_closing closing⟩
  | other k not_opening not_closing not_comma =>
    have hcount : count? (k : Int) t = some (k : Int) := by simp [count?, not_opening, not_closing]
    exact Or.inr ⟨k, Tail.push t, hcount, fun r => rfl,
      fun ts => readTail?_other not_opening not_closing not_comma⟩

/-- Tokens end the call and leave no count, or they leave a natural number with which the reader
goes on behind them. -/
theorem counts_taken (k : Nat) (taken : List Token) :
    (readTail? k taken).isSome = true ∧ taken.foldlM count? (k : Int) = none
      ∨ ∃ n : Nat, taken.foldlM count? (k : Int) = some (n : Int) ∧ ∀ left,
        (readTail? k (taken ++ left)).map Tail.ending = (readTail? n left).map Tail.ending := by
  induction taken generalizing k with
  | nil => exact Or.inr ⟨k, rfl, fun left => rfl⟩
  | cons t taken ih =>
    rw [List.foldlM_cons]
    rcases ends_or_counts k t with ⟨rfl, hclose⟩ | ⟨n, f, hcount, hf, hstep⟩
    · refine Or.inl ⟨by rw [readTail?_close hclose]; rfl, ?_⟩
      simp [count?, hclose]
    · have hending : Tail.ending ∘ f = Tail.ending := funext hf
      rw [hcount]
      rcases ih n with ⟨hread, hends⟩ | ⟨m, hm, hgoes⟩
      · exact Or.inl ⟨by rw [hstep, Option.isSome_map]; exact hread, hends⟩
      · refine Or.inr ⟨m, hm, fun left => ?_⟩
        rw [List.cons_append, hstep, Option.map_map, hending, hgoes]

/-- How the tokens behind an opening parenthesis are read as the arguments of a call. -/
structure ReadsCall (ts : List Token) : Prop where
  /-- The call is read exactly where a parenthesis closes it, -/
  closed_iff : (read? ts).isSome = true ↔ Closes ts
  /-- and then up to this one, its groups being the tokens before it, divided at the commas outside
  of further parentheses; an empty call has no group. -/
  groups_iff : ∀ groups close rest, read? ts = some ⟨groups, close, rest⟩ ↔
    ∃ us, ts = us ++ close :: rest ∧ Enclosed us ∧ close.is ")" = true ∧ Divides groups us
      ∧ (groups = [] ↔ us = [])
  /-- The count ends with the call. -/
  count_iff : ∀ taken left, ts = taken ++ left → (taken.foldlM count? 0 = none ↔ Closes taken)
  /-- Up to there the count is not below zero, and it is all that the reader goes on with. -/
  count_nonneg : ∀ taken left n, ts = taken ++ left → taken.foldlM count? 0 = some n →
    0 ≤ n ∧ (readTail? 0 ts).map Tail.ending = (readTail? n.toNat left).map Tail.ending

/-- The arguments of a call are the tokens up to the parenthesis that closes it. -/
theorem arguments_matched (ts : List Token) : ReadsCall ts := by
  refine ⟨isSome_read?_iff, ?_, ?_, ?_⟩
  · intro groups close rest
    rw [read?_eq_some_iff]
    constructor
    · rintro ⟨us, hts, hclose, hdivides, hempty⟩
      exact ⟨us, hts, hdivides.enclosed, hclose, hdivides, hempty⟩
    · rintro ⟨us, hts, -, hclose, hdivides, hempty⟩
      exact ⟨us, hts, hclose, hdivides, hempty⟩
  · intro taken left _
    rw [← isSome_read?_iff, read?, Option.isSome_map]
    rcases counts_taken 0 taken with ⟨hread, hends⟩ | ⟨n, hn, hgoes⟩
    · exact ⟨fun _ => hread, fun _ => hends⟩
    · have hnone : (readTail? 0 taken).isSome = false := by
        have hnil := hgoes []
        rw [List.append_nil, readTail?] at hnil
        rw [Option.map_eq_none_iff.1 hnil]
        rfl
      have hsome : taken.foldlM count? 0 = some (n : Int) := hn
      simp [hsome, hnone]
  · rintro taken left n rfl hn
    rcases counts_taken 0 taken with ⟨-, hends⟩ | ⟨m, hm, hgoes⟩
    · have hnone : taken.foldlM count? 0 = none := hends
      rw [hnone] at hn
      cases hn
    · have hsome : taken.foldlM count? 0 = some (m : Int) := hm
      rw [hsome] at hn
      obtain rfl := Option.some.inj hn
      exact ⟨Int.natCast_nonneg m, hgoes left⟩

/-- A comma alone parts two empty arguments. -/
example : (read? [sign ',' 0, sign ')' 1]).map CallArguments.groups = some [[], []] := by decide

end CallArguments

end ImageScript
