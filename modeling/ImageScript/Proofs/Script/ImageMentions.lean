import ImageScript.Proofs.Script.LiteralKinds
import ImageScript.Proofs.Text.Boundary
import ImageScript.Script.DeepWalk

/-!
# Recognized images are mentioned

The deep walk meets every token of the text itself, and the image of a recognized literal is the
content of one of these tokens. So the names that become widgets are among those that count as
mentioned.

Main statements: `tokenize_subset_deepTokens`, `exists_token_of_recognize`.
-/

namespace ImageScript

namespace DeepWalk

/-- The tokens of every text on the stack are met. -/
theorem tokens_subset_run (stack : List Cursor) :
    ∀ p ∈ stack, ∀ t ∈ p.tokens, t ∈ run stack := by
  fun_induction run stack with
  | case1 => exact fun p hp => absurd hp List.not_mem_nil
  | case2 p below hnext ih =>
    intro q hq t ht
    rcases List.mem_cons.1 hq with rfl | hq
    · rw [Cursor.tokens] at ht
      split at ht
      · exact absurd ht List.not_mem_nil
      · next h => rw [hnext] at h; simp at h
    · exact ih q hq t ht
  | case3 p below t₀ q₀ hnext ih =>
    have hbelow : ∀ q, q = q₀ ∨ q ∈ below → q ∈ push t₀ q₀ below := by
      intro q hq
      unfold push
      split
      · rcases hq with rfl | hq
        · exact List.mem_cons_of_mem _ (List.mem_cons_self ..)
        · exact List.mem_cons_of_mem _ (List.mem_cons_of_mem _ hq)
      · rcases hq with rfl | hq
        · exact List.mem_cons_self ..
        · exact List.mem_cons_of_mem _ hq
    intro q hq t ht
    rcases List.mem_cons.1 hq with rfl | hq
    · rw [Cursor.tokens] at ht
      split at ht
      · exact absurd ht List.not_mem_nil
      · next t' q' h =>
        rw [hnext, Option.some.injEq, Prod.mk.injEq] at h
        obtain ⟨rfl, rfl⟩ := h
        rcases List.mem_cons.1 ht with rfl | ht
        · exact List.mem_cons_self ..
        · exact List.mem_cons_of_mem _ (ih _ (hbelow _ (Or.inl rfl)) t ht)
    · exact List.mem_cons_of_mem _ (ih q (hbelow q (Or.inr hq)) t ht)

end DeepWalk

theorem tokenize_subset_deepTokens (s : Text) : ∀ t ∈ tokenize s, t ∈ deepTokens s :=
  DeepWalk.tokens_subset_run [⟨0, s⟩] ⟨0, s⟩ (List.mem_cons_self ..)

/-- The image that a literal names. -/
def Literal.image? : Literal → Option Text
  | .chain p => some p.image
  | .fileName name => some name
  | .marker | .region _ => none

theorem CallArguments.readTail?_suffix {depth : Nat} {ts : List Token} {r : Tail}
    (h : readTail? depth ts = some r) : r.rest <:+ ts := by
  induction ts generalizing depth r with
  | nil => simp [readTail?] at h
  | cons t ts ih =>
    simp only [readTail?] at h
    split at h
    · obtain rfl := Option.some.inj h
      exact List.suffix_cons t ts
    · split at h
      · obtain ⟨r', hr, rfl⟩ := Option.map_eq_some_iff.1 h
        exact (ih hr).trans (List.suffix_cons t ts)
      · obtain ⟨r', hr, rfl⟩ := Option.map_eq_some_iff.1 h
        exact (ih hr).trans (List.suffix_cons t ts)

theorem CallArguments.read?_suffix {ts : List Token} {a : CallArguments} (h : read? ts = some a) :
    a.rest <:+ ts := by
  obtain ⟨r, hr, rfl⟩ := Option.map_eq_some_iff.1 h
  exact readTail?_suffix hr

namespace Recognition

/-- No suffix changes the image of a pattern. -/
theorem image_applySuffix {p q : PatternLiteral} {suffix : Suffix} {pos : Nat}
    {args : List (List Token)} (h : applySuffix p suffix pos args = .ok q) : q.image = p.image := by
  unfold applySuffix at h
  repeat' split at h
  all_goals first | (cases h; rfl) | cases h

theorem suffixCall?_suffix {ts rest : List Token} {s : Suffix} {name opening : Token}
    (h : suffixCall? ts = some (s, name, opening, rest)) : rest <:+ ts := by
  obtain ⟨dot, rfl, -⟩ := exists_of_suffixCall? h
  exact ⟨[dot, name, opening], rfl⟩

theorem asOffset?_suffix {ts rest : List Token} {stop : Nat}
    (h : asOffset? ts = some (stop, rest)) : rest <:+ ts := by
  obtain ⟨dot, name, opening, close, rfl, -⟩ := exists_of_asOffset? h
  exact ⟨[dot, name, opening, close], rfl⟩

/-- What is left behind a pattern chain, and the image of the chain where it is one. -/
theorem readSuffixes_image (start : Nat) (p : PatternLiteral) (stop : Nat) (ts : List Token) :
    (readSuffixes start p stop ts).rest <:+ ts ∧
      ∀ m, (readSuffixes start p stop ts).finding = .literal m → m.literal.image? = some p.image := by
  fun_induction readSuffixes start p stop ts with
  | case1 p stop ts h =>
    refine ⟨List.suffix_refl ts, ?_⟩
    intro m hm
    obtain rfl := Finding.literal.inj hm
    rfl
  | case2 p stop ts suffix name opening rest h h' => exact ⟨suffixCall?_suffix h, by simp⟩
  | case3 p stop ts suffix name opening rest h args ha e he =>
    exact ⟨(CallArguments.read?_suffix ha).trans (suffixCall?_suffix h), by simp⟩
  | case4 p stop ts suffix name opening rest h args ha q hq ih =>
    obtain ⟨hrest, himage⟩ := ih
    refine ⟨hrest.trans ((CallArguments.read?_suffix ha).trans (suffixCall?_suffix h)), ?_⟩
    intro m hm
    rw [himage m hm, image_applySuffix hq]

/-- What one step of the scan leaves, and where the image that it found stands. -/
structure Found (ts : List Token) (s : Step) : Prop where
  rest_suffix : s.rest <:+ ts
  image : ∀ m name, s.finding = .literal m → m.literal.image? = some name →
    ∃ t ∈ ts, imageName? t = some name

theorem found_here? {ts : List Token} {s : Step} (h : here? ts = some s) : Found ts s := by
  -- Only a file name and a chain name an image.
  cases reads_of_here? h with
  | @quoted t ts l quoted literal =>
    refine ⟨List.suffix_cons t ts, ?_⟩
    intro m name hm hname
    obtain rfl := Finding.literal.inj hm
    rcases cases_of_quoted? literal with ⟨rfl, -⟩ | ⟨image, rfl, himage⟩
    · cases hname
    · exact ⟨t, List.mem_cons_self .., himage.trans hname⟩
  | @chain head opening t close ts image _ head_word opening_sign content close_sign suffixes =>
    obtain ⟨hrest, himage⟩ := readSuffixes_image head.offset (.bare image) close.stop ts
    rw [suffixes] at hrest himage
    refine ⟨hrest.trans ⟨[head, opening, t, close], rfl⟩, ?_⟩
    intro m name hm hname
    refine ⟨t, by simp, content.trans ?_⟩
    exact (himage m hm).symm.trans hname
  | @region head opening ts args x y w h head_word opening_sign call numbers plain =>
    refine ⟨(CallArguments.read?_suffix call).trans ⟨[head, opening], rfl⟩, ?_⟩
    intro m name hm hname
    obtain rfl := Finding.literal.inj hm
    cases hname
  | @offset head opening ts rest args x y w h stop head_word opening_sign call numbers marker =>
    have hargs := (CallArguments.read?_suffix call).trans ⟨[head, opening], rfl⟩
    refine ⟨(asOffset?_suffix marker).trans hargs, ?_⟩
    intro m name hm hname
    obtain rfl := Finding.literal.inj hm
    cases hname

/-- A step leaves its first token behind. -/
theorem exists_of_here? {ts : List Token} {s : Step} (h : here? ts = some s) :
    ∃ t us, ts = t :: us ∧ s.rest <:+ us := by
  have hlt := here?_rest_lt h
  obtain ⟨t, us, rfl⟩ := List.exists_cons_of_ne_nil (l := ts) (by rintro rfl; simp at hlt)
  rcases List.suffix_cons_iff.1 (found_here? h).rest_suffix with heq | hrest
  · rw [heq] at hlt
    exact absurd hlt (Nat.lt_irrefl _)
  · exact ⟨t, us, rfl, hrest⟩

/-- What the scan finds, it finds at the head of some of its tokens. -/
theorem exists_here?_of_mem_scan (ts : List Token) {f : Finding} (h : f ∈ scan ts) :
    ∃ us s, us <:+ ts ∧ here? us = some s ∧ s.finding = f := by
  fun_induction scan ts with
  | case1 => exact absurd h List.not_mem_nil
  | case2 t ts s hs ih =>
    rcases List.mem_cons.1 h with rfl | h
    · exact ⟨t :: ts, s, List.suffix_refl _, hs, rfl⟩
    · obtain ⟨us, s', hus, hfound⟩ := ih h
      exact ⟨us, s', hus.trans (found_here? hs).rest_suffix, hfound⟩
  | case3 t ts hs ih =>
    obtain ⟨us, s', hus, hfound⟩ := ih h
    exact ⟨us, s', hus.trans (List.suffix_cons t ts), hfound⟩

end Recognition

/-- A recognized literal was found at the head of some tokens of the text. -/
theorem exists_here?_of_recognize {s : Text} {m : Match} (h : m ∈ recognizeAll s) :
    ∃ us step, us <:+ tokenize s ∧ Recognition.here? us = some step
      ∧ step.finding = .literal m := by
  obtain ⟨f, hf, hm⟩ := List.mem_filterMap.1 h
  unfold findings at hf
  rw [Text.slice?_whole] at hf
  cases f with
  | literal m' =>
    obtain rfl := Option.some.inj hm
    exact Recognition.exists_here?_of_mem_scan _ hf
  | rejected e => simp [Finding.match?] at hm

/-- An image that is recognized in a text is the content of a closed string. -/
theorem exists_token_of_recognize {s : Text} {m : Match} {name : Text} (h : m ∈ recognizeAll s)
    (hname : m.literal.image? = some name) :
    ∃ t ∈ tokenize s, Recognition.imageName? t = some name := by
  obtain ⟨us, step, hus, hstep, hfinding⟩ := exists_here?_of_recognize h
  obtain ⟨t, ht, himage⟩ := (Recognition.found_here? hstep).image m name hfinding hname
  exact ⟨t, hus.subset ht, himage⟩

end ImageScript
