import ImageScript.Proofs.Script.SuffixReading

/-!
# The recognizer accepts its grammar

At every place where the scan stands a literal is found exactly if the grammar derives it from the
tokens there. Behind a chain no suffix call is even begun: one that is opened and never closed gives
the chain up, and so does one with bad arguments.

Main statements: `Grammar.here?_eq_some_iff`, `literals_obeyGrammar`, `not_obeysGrammar_wholeCalls`.
-/

namespace ImageScript

namespace Grammar

open Recognition

variable {us args rest : List Token} {groups : List (List Token)} {image : Text} {l : Literal}
  {m : Match}

/-- A region is accepted with its four numbers, and with the marker behind it. -/
theorem RegionCall.here?_eq {x y w h : Int32} (call : RegionCall us x y w h)
    (hread : ∀ t ∈ us, t.IsRead) : ∃ head close, us.head? = some head ∧ us.getLast? = some close
      ∧ ∀ rest, here? (us ++ rest) = match asOffset? rest with
        | some (stop, rest') => some ⟨.literal ⟨head.offset, stop, .region ⟨x, y, w, h, true⟩⟩, rest'⟩
        | none => some ⟨.literal ⟨head.offset, close.stop, .region ⟨x, y, w, h, false⟩⟩, rest⟩ := by
  cases call with
  | @call head opening close args xs ys ws hs x y w h head_word opening_sign joined x_number y_number
      w_number h_number close_sign =>
    refine ⟨head, close, rfl, by simp [List.getLast?_cons], fun rest => ?_⟩
    have hgroup : ∀ g ∈ [xs, ys, ws, hs], ∀ t ∈ g, t.IsRead := fun g hg t ht =>
      hread t (by simp [joined.mem g hg t ht])
    have hplain : ∀ g ∈ [xs, ys, ws, hs], g ≠ [] ∧ ∀ t ∈ g, IsPlain t := by
      simpa using ⟨x_number.isPlain, y_number.isPlain, w_number.isPlain, h_number.isPlain⟩
    have hargs := read?_joined hplain close_sign joined rest
    have hx := (int?_eq_some_iff (hgroup xs (by simp))).2 x_number
    have hy := (int?_eq_some_iff (hgroup ys (by simp))).2 y_number
    have hw := (int?_eq_some_iff (hgroup ws (by simp))).2 w_number
    have hh := (int?_eq_some_iff (hgroup hs (by simp))).2 h_number
    have htokens : head :: opening :: (args ++ [close]) ++ rest =
        head :: opening :: (args ++ close :: rest) := by simp
    have hnumbers : [xs, ys, ws, hs].map int? = [some x, some y, some w, some h] := by
      simp only [List.map_cons, List.map_nil, hx, hy, hw, hh]
    rw [htokens]
    cases hmarker : asOffset? rest with
    | none => exact here?_of_reads (.region head_word opening_sign hargs hnumbers hmarker)
    | some found => exact here?_of_reads (.offset head_word opening_sign hargs hnumbers hmarker)

theorem asOffset?_eq_none {ts : List Token} (h : ∀ us rest, ts = us ++ rest → ¬ OffsetCall us) :
    asOffset? ts = none := by
  cases hmarker : asOffset? ts with
  | none => rfl
  | some found =>
    obtain ⟨dot, name, opening, close, rfl, hdot, hname, hopening, hclose, -⟩ :=
      exists_of_asOffset? hmarker
    exact absurd (.call hdot hname hopening hclose) (h [dot, name, opening, close] found.2 rfl)

/-- Each rule of the grammar is accepted, and the literal reaches over the tokens of the rule. -/
theorem Derives.exists_here? (h : Derives CallBegins us l rest) (hread : ∀ t ∈ us, t.IsRead) :
    ∃ m, here? (us ++ rest) = some ⟨.literal m, rest⟩ ∧ m.literal = l ∧ Spans us m := by
  cases h with
  | @marker t rest quoted content =>
    have hquoted : quoted? t = some .marker := if_pos content
    rw [List.singleton_append, here?_of_quoted quoted, hquoted]
    exact ⟨_, rfl, rfl, rfl, rfl⟩
  | @chain us vs rest image as call suffixes maximal =>
    cases call with
    | @call head opening name close image head_word opening_sign content isImage close_sign =>
      have hname : imageName? name = some image := by simp [imageName?, content, isImage]
      have hsuffixes := suffixes.readSuffixes_eq (fun t ht => hread t (List.mem_append_right _ ht))
        head.offset (.bare image) close.stop rest
      rw [readSuffixes_of_none (suffixCall?_eq_none_iff.2 maximal), foldl_set] at hsuffixes
      have hchain := here?_of_reads (.chain head_word opening_sign hname close_sign hsuffixes)
      exact ⟨_, hchain, rfl, rfl, getLast?_stop [head, opening, name] close vs⟩
  | @region us rest x y w h call plain =>
    obtain ⟨head, close, hhead, hclose, hhere⟩ := call.here?_eq hread
    rw [hhere, asOffset?_eq_none plain]
    exact ⟨_, rfl, rfl, by rw [hhead]; rfl, by rw [hclose]; rfl⟩
  | @offset us vs rest x y w h call offset =>
    obtain ⟨head, close, hhead, hclose, hhere⟩ :=
      call.here?_eq fun t ht => hread t (List.mem_append_left _ ht)
    cases offset with
    | @call dot name opening last dot_sign name_word opening_sign close_sign =>
      rw [List.append_assoc, hhere, List.cons_append, List.cons_append, List.cons_append,
        List.cons_append, asOffset?_of_is dot_sign name_word opening_sign close_sign]
      exact ⟨_, rfl, rfl, by rw [List.head?_append, hhead]; rfl, by simp [List.getLast?_append]⟩
  | @fileName t name rest quoted content isImage =>
    have hmarker : t.content? ≠ some captureMarker := by
      rw [content]
      rintro heq
      obtain rfl := Option.some.inj heq
      revert isImage
      decide
    have hname : imageName? t = some name := by simp [imageName?, content, isImage]
    have hquoted : quoted? t = some (.fileName name) := by simp [quoted?, hmarker, hname]
    rw [List.singleton_append, here?_of_quoted quoted, hquoted]
    exact ⟨_, rfl, rfl, rfl, rfl⟩

/-- The call of a region that is read is derived. -/
theorem exists_regionCall {head opening : Token} {ts : List Token} {args : CallArguments}
    {x y w h : Int32} (hread : ∀ t ∈ ts, t.IsRead) (head_word : head.is "Region" = true)
    (opening_sign : opening.is "(" = true) (call : CallArguments.read? ts = some args)
    (numbers : args.groups.map int? = [some x, some y, some w, some h]) :
    ∃ us, ts = us ++ args.close :: args.rest
      ∧ RegionCall (head :: opening :: (us ++ [args.close])) x y w h := by
  obtain ⟨us, rfl, hclose, hjoined⟩ := joined_of_read? call
  simp only [List.map_eq_cons_iff, List.map_eq_nil_iff] at numbers
  obtain ⟨xs, _, hgroups, hx, ys, _, rfl, hy, ws, _, rfl, hw, hs, _, rfl, hh, rfl⟩ := numbers
  rw [hgroups] at hjoined
  have hgroup : ∀ g ∈ [xs, ys, ws, hs], ∀ t ∈ g, t.IsRead := fun g hg t ht =>
    hread t (by simp [hjoined.mem g hg t ht])
  exact ⟨us, rfl, .call head_word opening_sign hjoined ((int?_eq_some_iff (hgroup xs (by simp))).1 hx)
    ((int?_eq_some_iff (hgroup ys (by simp))).1 hy) ((int?_eq_some_iff (hgroup ws (by simp))).1 hw)
    ((int?_eq_some_iff (hgroup hs (by simp))).1 hh) hclose⟩

/-- Every literal that is found is derived. -/
theorem derives_of_here? {ts : List Token} (hread : ∀ t ∈ ts, t.IsRead)
    (h : here? ts = some ⟨.literal m, rest⟩) :
    ∃ us, ts = us ++ rest ∧ Derives CallBegins us m.literal rest ∧ Spans us m := by
  cases reads_of_here? h with
  | @quoted t ts l hquoted hliteral =>
    refine ⟨[t], rfl, ?_, rfl, rfl⟩
    rcases cases_of_quoted? hliteral with ⟨rfl, hmarker⟩ | ⟨name, rfl, hname⟩
    · exact .marker hquoted hmarker
    · obtain ⟨hcontent, hisImage⟩ := Option.filter_eq_some_iff.1 hname
      exact .fileName hquoted hcontent hisImage
  | @chain head opening name close ts image _ hhead hopening himage hclose hsuffixes =>
    obtain ⟨hcontent, hisImage⟩ := Option.filter_eq_some_iff.1 himage
    obtain ⟨us, as, hts, hcalls, hends, rfl⟩ := exists_suffixCalls head.offset (.bare image)
      close.stop ts (fun t ht => hread t (by simp [ht])) (congrArg Step.finding hsuffixes)
    rw [hsuffixes] at hts hends
    refine ⟨[head, opening, name, close] ++ us, by simp [hts], ?_, rfl,
      getLast?_stop [head, opening, name] close us⟩
    rw [foldl_set]
    exact .chain (.call hhead hopening hcontent hisImage hclose) hcalls hends
  | @region head opening ts args x y w z hhead hopening hcall hnumbers hplain =>
    obtain ⟨us, rfl, call⟩ := exists_regionCall (fun t ht => hread t (by simp [ht])) hhead hopening
      hcall hnumbers
    refine ⟨head :: opening :: (us ++ [args.close]), by simp, .region call ?_, rfl,
      getLast?_stop (head :: opening :: us) args.close []⟩
    rintro vs rest' hrest ⟨hdot, hname, hopening', hclose⟩
    rw [hrest] at hplain
    simp [asOffset?_of_is hdot hname hopening' hclose] at hplain
  | @offset head opening ts rest args x y w z stop hhead hopening hcall hnumbers hmarker =>
    obtain ⟨us, rfl, call⟩ := exists_regionCall (fun t ht => hread t (by simp [ht])) hhead hopening
      hcall hnumbers
    obtain ⟨dot, name, opening', close, hrest, hdot, hname, hopening', hclose, rfl⟩ :=
      exists_of_asOffset? hmarker
    refine ⟨head :: opening :: (us ++ [args.close]) ++ [dot, name, opening', close],
      by simp [hrest], .offset call (.call hdot hname hopening' hclose), rfl, ?_⟩
    rw [List.getLast?_append]
    rfl

/-- A literal is found at the head of some tokens exactly if the grammar derives it there. -/
theorem here?_eq_some_iff {ts : List Token} (hread : ∀ t ∈ ts, t.IsRead) :
    here? ts = some ⟨.literal m, rest⟩ ↔ ∃ us, ts = us ++ rest
      ∧ Derives CallBegins us m.literal rest ∧ Spans us m := by
  constructor
  · exact derives_of_here? hread
  · rintro ⟨us, rfl, hderives, hspans⟩
    obtain ⟨m', hhere, hliteral, hspans'⟩ :=
      hderives.exists_here? fun t ht => hread t (List.mem_append_left _ ht)
    have hstart : m'.start = m.start := Option.some.inj (hspans'.start.symm.trans hspans.start)
    have hstop : m'.stop = m.stop := Option.some.inj (hspans'.stop.symm.trans hspans.stop)
    rw [hhere]
    cases m
    cases m'
    simp_all

end Grammar

namespace Recognition

/-- The scan stands within its tokens. -/
theorem suffix_of_mem_stands (ts : List Token) : ∀ us ∈ stands ts, us <:+ ts := by
  fun_induction stands ts with
  | case1 => exact fun us hus => absurd hus List.not_mem_nil
  | case2 t ts s hs ih =>
    intro us hus
    rcases List.mem_cons.1 hus with rfl | hus
    · exact List.suffix_refl _
    · exact (ih us hus).trans (found_here? hs).rest_suffix
  | case3 t ts hs ih =>
    intro us hus
    rcases List.mem_cons.1 hus with rfl | hus
    · exact List.suffix_refl _
    · exact (ih us hus).trans (List.suffix_cons t ts)

theorem mem_stands_self {ts : List Token} (h : ts ≠ []) : ts ∈ stands ts := by
  obtain ⟨t, ts, rfl⟩ := List.exists_cons_of_ne_nil h
  rw [stands]
  split <;> exact List.mem_cons_self ..

theorem literals_eq_stands (ts : List Token) : literals ts =
    (stands ts).filterMap fun us => (here? us).bind fun s => s.finding.match? := by
  fun_induction stands ts with
  | case1 => simp [literals, scan]
  | case2 t ts s hs ih =>
    rw [literals_of_some hs, List.filterMap_cons, hs, Option.bind_some]
    simp only [Step.outcome, ih]
    cases s.finding.match? <;> rfl
  | case3 t ts hs ih =>
    rw [literals_of_none hs, List.filterMap_cons, hs, Option.bind_none, ih]

end Recognition

/-- The literals of a text are those of the grammar, where a chain goes on with every call that is
opened behind it. -/
theorem literals_obeyGrammar (s : Text) : ObeysGrammar Grammar.CallBegins s where
  reported _ := Recognition.literals_eq_stands _
  accepts _ _ hts _ _ := Grammar.here?_eq_some_iff fun t ht =>
    Cursor.isRead_of_mem_tokens _ t ((Recognition.suffix_of_mem_stands _ _ hts).subset ht)

/-- A call that is never closed gives up the chain before it, which a grammar of whole calls would
derive. -/
theorem not_obeysGrammar_wholeCalls :
    ¬ ObeysGrammar Grammar.CallStands "Pattern(\"a.png\").similar(".toList := by
  intro h
  let pattern : List Token := [⟨.other, "Pattern".toList, 0⟩, sign '(' 7,
    ⟨.string, "\"a.png\"".toList, 8⟩, sign ')' 15]
  let behind : List Token := [sign '.' 16, ⟨.other, "similar".toList, 17⟩, sign '(' 24]
  have htokens : Cursor.tokens ⟨0, "Pattern(\"a.png\").similar(".toList⟩ = pattern ++ behind := by
    decide +kernel
  have hmem : pattern ++ behind ∈ Recognition.stands (pattern ++ behind) :=
    Recognition.mem_stands_self (List.cons_ne_nil _ _)
  have hwhole : ¬ Grammar.CallStands behind := by
    rintro ⟨dot, name, opening, suffix, rest, heq, -, -, -, hargs⟩
    simp only [behind, List.cons.injEq] at heq
    obtain ⟨-, -, -, rfl⟩ := heq
    cases hargs
  have hpattern : Grammar.PatternCall pattern "a.png".toList :=
    .call (by decide) (by decide) (by decide) (by decide) (by decide)
  have hderives := Grammar.Derives.chain hpattern .nil hwhole
  have hfound := (h.accepts 0 _ (htokens ▸ hmem) ⟨0, 16, .chain (.bare "a.png".toList)⟩ behind).2
    ⟨pattern, rfl, hderives, rfl, rfl⟩
  have hrejected : (Recognition.here? (pattern ++ behind)).map Recognition.Step.finding =
      some (.rejected (.unclosed 24 .similar)) := by decide +kernel
  rw [hfound] at hrejected
  cases hrejected

end ImageScript
