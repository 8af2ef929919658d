import ResidueMachine.Proofs.Spelling

/-!
# Where the runs of a text are

Tokens, errors and instructions have ranges of bytes.  Such a range means something only if it
starts and ends between characters of the text, and `Span.Covers` says that it does, and which
characters it holds.

All of this comes from the offsets that runs are found with.  A text can be cut between any two of
its runs: into a part that ends with the one, blanks, and a part that starts with the other.

* `MaximalRuns.covers` : the range of a run covers the characters of the run;
* `MaximalRuns.pairwise_stop_lt` : runs stand one behind the other, with a byte between them at
  least;
* `MaximalRuns.exists_cut`, `TokensFrom.exists_cut` : a text is cut between two runs or tokens;
* `TokensFrom.exists_part`, `TokensFrom.exists_gap`, `TokensFrom.exists_front`,
  `TokensFrom.exists_back` : what is found from one token to another, between two of them, in front
  of one and behind the last;
* `TokensFrom.exists_tokenize` : a part of a text has the same numbers as a text of its own.
-/

namespace ResidueMachine

/-- The range starts and ends between characters of the text, and holds the characters `shown`. -/
def Span.Covers (span : Span) (text shown : List Char) : Prop :=
  ∃ before after, text = before ++ (shown ++ after) ∧ span.start = byteLength before ∧
    span.stop = byteLength before + byteLength shown

/-- A text that starts at an offset, cut between two of its ranges: `front` ends with the last of
the ranges before, `back` starts with the first of those after, and the blanks between them are
the `gap`. -/
structure IsCut (offset : Nat) (text : List Char) (before after : List Span)
    (front gap back : List Char) : Prop where
  /-- The parts make up the text. -/
  text_eq : text = front ++ (gap ++ back)
  /-- The gap is blank. -/
  isBlank_of_mem : ∀ c ∈ gap, isBlank c
  /-- Two ranges have a gap between them. -/
  gap_ne_nil : before ≠ [] → after ≠ [] → gap ≠ []
  /-- The front ends where the last range before does. -/
  stop_eq : ∀ span ∈ before.getLast?, span.stop = offset + byteLength front
  /-- The back starts where the first range after does. -/
  start_eq : ∀ span ∈ after.head?, span.start = offset + byteLength front + byteLength gap
  /-- Without ranges before, all blanks belong to the gap. -/
  front_eq_nil : before = [] → front = []
  /-- Without ranges after, all blanks belong to the gap. -/
  back_eq_nil : after = [] → back = []

/-- A run and the token that it writes. -/
def Lexeme.WritesToken (run : Lexeme) (t : Token) : Prop :=
  Numeral.Writes run.text t.number ∧ t.span = run.span

/-- The tokens of a text that starts at an offset. -/
def TokensFrom (offset : Nat) (text : List Char) (tokens : List Token) : Prop :=
  ∃ runs, MaximalRuns offset text runs ∧ List.Forall₂ Lexeme.WritesToken runs tokens

/-! ### Ranges -/

theorem byteLength_pos {text : List Char} (h : text ≠ []) : 0 < byteLength text := by
  obtain ⟨c, rest, rfl⟩ := List.exists_cons_of_ne_nil h
  rw [byteLength_cons]
  exact Nat.add_pos_left c.utf8Size_pos _

theorem eq_nil_of_byteLength_eq_zero {text : List Char} (h : byteLength text = 0) : text = [] := by
  by_contra hne
  exact Nat.ne_of_gt (byteLength_pos hne) h

theorem append_inj_of_byteLength_eq {front front' back back' : List Char}
    (h : front ++ back = front' ++ back') (hlength : byteLength front = byteLength front') :
    front = front' ∧ back = back' := by
  rcases List.append_eq_append_iff.1 h with ⟨between, rfl, rfl⟩ | ⟨between, rfl, rfl⟩
  · rw [byteLength_append, Nat.left_eq_add] at hlength
    obtain rfl := eq_nil_of_byteLength_eq_zero hlength
    exact ⟨(List.append_nil front).symm, List.nil_append back'⟩
  · rw [byteLength_append, Nat.add_eq_left] at hlength
    obtain rfl := eq_nil_of_byteLength_eq_zero hlength
    exact ⟨List.append_nil front', (List.nil_append back).symm⟩

namespace Span

variable {span : Span} {text shown : List Char}

theorem Covers.unique {shown' : List Char} (h : span.Covers text shown)
    (h' : span.Covers text shown') : shown = shown' := by
  obtain ⟨before, after, htext, hstart, hstop⟩ := h
  obtain ⟨before', after', htext', hstart', hstop'⟩ := h'
  rw [htext] at htext'
  obtain ⟨rfl, hrest⟩ := append_inj_of_byteLength_eq htext' (hstart.symm.trans hstart')
  rw [hstop, Nat.add_left_cancel_iff] at hstop'
  exact (append_inj_of_byteLength_eq hrest hstop').1

theorem Covers.stop_le (h : span.Covers text shown) : span.stop ≤ byteLength text := by
  obtain ⟨before, after, rfl, -, hstop⟩ := h
  rw [hstop, byteLength_append, byteLength_append]
  omega

theorem Covers.start_lt_stop (h : span.Covers text shown) (hshown : shown ≠ []) :
    span.start < span.stop := by
  obtain ⟨before, after, -, hstart, hstop⟩ := h
  rw [hstart, hstop]
  exact Nat.lt_add_of_pos_right (byteLength_pos hshown)

theorem Covers.length_eq (h : span.Covers text shown) :
    span.length = byteLength shown ∧ span.start + span.length = span.stop := by
  obtain ⟨before, after, -, hstart, hstop⟩ := h
  rw [length, hstart, hstop, Nat.add_sub_cancel_left]
  exact ⟨rfl, rfl⟩

end Span

/-! ### Cuts -/

namespace IsCut

variable {offset : Nat} {c : Char} {text word front gap back : List Char}
  {before after : List Span}

theorem cons_gap (hc : isBlank c)
    (h : IsCut (offset + c.utf8Size) text [] after [] gap back) :
    IsCut offset (c :: text) [] after [] (c :: gap) back where
  text_eq := congrArg (c :: ·) h.text_eq
  isBlank_of_mem := List.forall_mem_cons.2 ⟨hc, h.isBlank_of_mem⟩
  gap_ne_nil hbefore := absurd rfl hbefore
  stop_eq := by rintro span ⟨⟩
  start_eq := by
    intro span hspan
    rw [h.start_eq span hspan, byteLength_cons, byteLength_nil]
    omega
  front_eq_nil _ := rfl
  back_eq_nil := h.back_eq_nil

theorem cons_front (hbefore : before ≠ [])
    (h : IsCut (offset + c.utf8Size) text before after front gap back) :
    IsCut offset (c :: text) before after (c :: front) gap back where
  text_eq := congrArg (c :: ·) h.text_eq
  isBlank_of_mem := h.isBlank_of_mem
  gap_ne_nil := h.gap_ne_nil
  stop_eq := by
    intro span hspan
    rw [h.stop_eq span hspan, byteLength_cons, Nat.add_assoc]
  start_eq := by
    intro span hspan
    rw [h.start_eq span hspan, byteLength_cons, ← Nat.add_assoc offset]
  front_eq_nil hnil := absurd hnil hbefore
  back_eq_nil := h.back_eq_nil

theorem append_front (hgap : after ≠ [] → front ++ gap ≠ [])
    (h : IsCut (offset + byteLength word) text before after front gap back) :
    IsCut offset (word ++ text) (⟨offset, offset + byteLength word⟩ :: before) after
      (word ++ front) gap back where
  text_eq := by rw [h.text_eq, List.append_assoc]
  isBlank_of_mem := h.isBlank_of_mem
  gap_ne_nil := by
    intro _ hafter
    by_cases hbefore : before = []
    · have hne := hgap hafter
      rwa [h.front_eq_nil hbefore, List.nil_append] at hne
    · exact h.gap_ne_nil hbefore hafter
  stop_eq := by
    intro span hspan
    rw [byteLength_append, ← Nat.add_assoc]
    by_cases hbefore : before = []
    · rw [hbefore] at hspan
      cases hspan
      rw [h.front_eq_nil hbefore]
      rfl
    · obtain ⟨second, others, rfl⟩ := List.exists_cons_of_ne_nil hbefore
      rw [List.getLast?_cons_cons] at hspan
      exact h.stop_eq span hspan
  start_eq := by
    intro span hspan
    rw [h.start_eq span hspan, byteLength_append, ← Nat.add_assoc offset]
  front_eq_nil := by rintro ⟨⟩
  back_eq_nil := h.back_eq_nil

end IsCut

/-! ### Runs -/

namespace MaximalRuns

variable {offset : Nat} {text : List Char} {runs : List Lexeme}

theorem of_blank {c : Char} (hc : isBlank c) (h : MaximalRuns offset (c :: text) runs) :
    MaximalRuns (offset + c.utf8Size) text runs := by
  rw [maximalRuns_iff, lexemesFrom_blank hc] at h
  exact maximalRuns_iff.2 h

/-- Each run is somewhere in the text, as many bytes behind its start as the offset tells. -/
theorem exists_eq_append (h : MaximalRuns offset text runs) :
    ∀ run ∈ runs, ∃ before after, text = before ++ (run.text ++ after) ∧
      run.start = offset + byteLength before := by
  induction h with
  | nil => exact List.forall_mem_nil _
  | @blank offset c text runs _ _ ih =>
    intro run hrun
    obtain ⟨before, after, rfl, hstart⟩ := ih run hrun
    refine ⟨c :: before, after, rfl, ?_⟩
    rw [hstart, byteLength_cons, Nat.add_assoc]
  | @run offset word text runs _ _ _ _ ih =>
    refine List.forall_mem_cons.2 ⟨⟨[], text, rfl, rfl⟩, fun run hrun => ?_⟩
    obtain ⟨before, after, rfl, hstart⟩ := ih run hrun
    refine ⟨word ++ before, after, by rw [List.append_assoc], ?_⟩
    rw [hstart, byteLength_append, Nat.add_assoc]

theorem text_ne_nil (h : MaximalRuns offset text runs) : ∀ run ∈ runs, run.text ≠ [] := by
  induction h with
  | nil => exact List.forall_mem_nil _
  | blank _ _ ih => exact ih
  | run hword _ _ _ ih => exact List.forall_mem_cons.2 ⟨hword, ih⟩

/-- **The range of a run covers its characters.** -/
theorem covers (h : MaximalRuns 0 text runs) {run : Lexeme} (hrun : run ∈ runs) :
    run.span.Covers text run.text := by
  obtain ⟨before, after, htext, hstart⟩ := h.exists_eq_append run hrun
  rw [Nat.zero_add] at hstart
  exact ⟨before, after, htext, hstart, congrArg (· + byteLength run.text) hstart⟩

theorem offset_le_start (h : MaximalRuns offset text runs) {run : Lexeme} (hrun : run ∈ runs) :
    offset ≤ run.start := by
  obtain ⟨before, _, _, hstart⟩ := h.exists_eq_append run hrun
  rw [hstart]
  exact Nat.le_add_right offset _

theorem offset_lt_start (h : MaximalRuns offset text runs) (hblank : ∀ c ∈ text.head?, isBlank c)
    {run : Lexeme} (hrun : run ∈ runs) : offset < run.start := by
  cases text with
  | nil =>
    have hnone := h.length_le
    rw [byteLength_nil, Nat.le_zero, List.length_eq_zero_iff] at hnone
    rw [hnone] at hrun
    cases hrun
  | cons c rest =>
    have hle := (h.of_blank (hblank c rfl)).offset_le_start hrun
    exact Nat.lt_of_lt_of_le (Nat.lt_add_of_pos_right c.utf8Size_pos) hle

/-- **Runs stand one behind the other**, and not without a gap. -/
theorem pairwise_stop_lt (h : MaximalRuns offset text runs) :
    runs.Pairwise fun run later => run.span.stop < later.span.start := by
  induction h with
  | nil => exact .nil
  | blank _ _ ih => exact ih
  | run _ _ hend hruns ih => exact .cons (fun _ hlater => hruns.offset_lt_start hend hlater) ih

/-- **A text can be cut between two of its runs.** -/
theorem exists_cut {before after : List Lexeme} (h : MaximalRuns offset text (before ++ after)) :
    ∃ front gap back,
      IsCut offset text (before.map Lexeme.span) (after.map Lexeme.span) front gap back ∧
      MaximalRuns offset front before ∧
      MaximalRuns (offset + byteLength (front ++ gap)) back after := by
  generalize hruns : before ++ after = runs at h
  induction h generalizing before with
  | @nil offset =>
    obtain ⟨rfl, rfl⟩ := List.append_eq_nil_iff.1 hruns
    exact ⟨[], [], [], ⟨rfl, by simp, by simp, by simp, by simp, by simp, by simp⟩, .nil, .nil⟩
  | @blank offset c text runs hc htext ih =>
    obtain ⟨front, gap, back, hcut, hfront, hback⟩ := ih hruns
    rw [Nat.add_assoc] at hback
    by_cases hbefore : before = []
    · subst hbefore
      obtain rfl := hcut.front_eq_nil rfl
      exact ⟨[], c :: gap, back, hcut.cons_gap hc, .nil, hback⟩
    · have hne : before.map Lexeme.span ≠ [] := fun hnil => hbefore (List.map_eq_nil_iff.1 hnil)
      exact ⟨c :: front, gap, back, hcut.cons_front hne, .blank hc hfront, hback⟩
  | @run offset word text runs hword hsolid hend htext ih =>
    cases before with
    | nil =>
      -- the run starts the back, and nothing is before it
      rw [List.nil_append] at hruns
      subst hruns
      refine ⟨[], [], word ++ text, ⟨rfl, by simp, by simp, by simp, ?_, by simp, by simp⟩, .nil,
        .run hword hsolid hend htext⟩
      rintro span ⟨⟩
      rfl
    | cons first before =>
      obtain ⟨rfl, hrest⟩ := List.cons.inj hruns
      obtain ⟨front, gap, back, hcut, hfront, hback⟩ := ih hrest
      rw [Nat.add_assoc, ← byteLength_append, ← List.append_assoc] at hback
      have hends : ∀ c ∈ front.head?, isBlank c := by
        intro c hc
        refine hend c ?_
        rw [hcut.text_eq, List.head?_append, Option.mem_def.1 hc]
        rfl
      refine ⟨word ++ front, gap, back, hcut.append_front ?_,
        .run hword hsolid hends hfront, hback⟩
      intro hafter hnil
      -- the next run would start right behind this one
      have hne : after ≠ [] := fun h => hafter (List.map_eq_nil_iff.2 h)
      obtain ⟨next, others, rfl⟩ := List.exists_cons_of_ne_nil hne
      have hnext : next ∈ runs := hrest ▸ List.mem_append_right before List.mem_cons_self
      have hlt := htext.offset_lt_start hend hnext
      have hstart := hcut.start_eq next.span rfl
      obtain ⟨rfl, rfl⟩ := List.append_eq_nil_iff.1 hnil
      exact Nat.ne_of_gt hlt hstart

theorem move (h : MaximalRuns offset text runs) (offset' : Nat) :
    ∃ runs', MaximalRuns offset' text runs' ∧ runs'.map Lexeme.text = runs.map Lexeme.text := by
  induction h generalizing offset' with
  | nil => exact ⟨[], .nil, rfl⟩
  | @blank _ c _ _ hc _ ih =>
    obtain ⟨runs', hruns', htexts⟩ := ih (offset' + c.utf8Size)
    exact ⟨runs', .blank hc hruns', htexts⟩
  | @run _ word _ _ hword hsolid hend _ ih =>
    obtain ⟨runs', hruns', htexts⟩ := ih (offset' + byteLength word)
    exact ⟨⟨word, offset'⟩ :: runs', .run hword hsolid hend hruns', congrArg (word :: ·) htexts⟩

theorem append_blanks {gap : List Char} (h : MaximalRuns offset text runs)
    (hgap : ∀ c ∈ gap, isBlank c) : MaximalRuns offset (text ++ gap) runs := by
  have hnone : MaximalRuns (offset + byteLength text) gap [] := by
    generalize offset + byteLength text = start
    induction gap generalizing start with
    | nil => exact .nil
    | cons c gap ih =>
      obtain ⟨hc, hgap⟩ := List.forall_mem_cons.1 hgap
      exact .blank hc (ih hgap _)
  have hruns := h.append (fun c hc => hgap c (List.mem_of_mem_head? hc)) hnone
  rw [List.append_nil] at hruns
  exact hruns

end MaximalRuns

/-! ### Tokens -/

theorem tokenize_eq_ok_iff_tokensFrom {text : List Char} {tokens : List Token} :
    tokenize text = .ok tokens ↔ TokensFrom 0 text tokens :=
  tokenize_eq_ok_iff

theorem getLastD_mem_getLast? (before : List Token) (first : Token) (others : List Token) :
    others.getLastD first ∈ (before ++ first :: others).getLast? := by
  rw [List.getLast?_append_cons, List.getLast?_cons, ← List.getLastD_eq_getLast?]
  rfl

theorem span_mem_getLast? {tokens : List Token} {last : Token} (h : last ∈ tokens.getLast?) :
    last.span ∈ (tokens.map Token.span).getLast? := by
  rw [List.getLast?_map]
  exact Option.mem_map_of_mem Token.span h

theorem map_span_of_writesToken {runs : List Lexeme} {tokens : List Token}
    (h : List.Forall₂ Lexeme.WritesToken runs tokens) :
    runs.map Lexeme.span = tokens.map Token.span := by
  induction h with
  | nil => rfl
  | cons hrun _ ih => rw [List.map_cons, List.map_cons, ih, hrun.2]

namespace TokensFrom

variable {offset : Nat} {text : List Char} {tokens : List Token}

theorem exists_run (h : TokensFrom offset text tokens) {t : Token} (ht : t ∈ tokens) :
    ∃ runs run, MaximalRuns offset text runs ∧ run ∈ runs ∧ run.WritesToken t := by
  obtain ⟨runs, hruns, hwrites⟩ := h
  obtain ⟨before, after, rfl⟩ := List.append_of_mem ht
  have hdrop := List.forall₂_drop_append runs before (t :: after) hwrites
  obtain ⟨run, others, hrun, -, hothers⟩ := List.forall₂_cons_right_iff.1 hdrop
  have hmem : run ∈ runs.drop before.length := hothers ▸ List.mem_cons_self
  exact ⟨runs, run, hruns, List.mem_of_mem_drop hmem, hrun⟩

theorem text_ne_nil {first : Token} (h : TokensFrom offset text (first :: tokens)) :
    text ≠ [] := by
  rintro rfl
  obtain ⟨_, hruns, hwrites⟩ := h
  have hnone := hruns.length_le
  rw [hwrites.length_eq] at hnone
  exact absurd hnone (Nat.not_succ_le_zero _)

/-- **A text can be cut between two of its tokens.** -/
theorem exists_cut {before after : List Token} (h : TokensFrom offset text (before ++ after)) :
    ∃ front gap back,
      IsCut offset text (before.map Token.span) (after.map Token.span) front gap back ∧
      TokensFrom offset front before ∧
      TokensFrom (offset + byteLength (front ++ gap)) back after := by
  obtain ⟨runs, hruns, hwrites⟩ := h
  have hbefore := List.forall₂_take_append runs before after hwrites
  have hafter := List.forall₂_drop_append runs before after hwrites
  rw [← List.take_append_drop before.length runs] at hruns
  obtain ⟨front, gap, back, hcut, hfront, hback⟩ := hruns.exists_cut
  rw [map_span_of_writesToken hbefore, map_span_of_writesToken hafter] at hcut
  exact ⟨front, gap, back, hcut, ⟨_, hfront, hbefore⟩, ⟨_, hback, hafter⟩⟩

theorem append_blanks {gap : List Char} (h : TokensFrom offset text tokens)
    (hgap : ∀ c ∈ gap, isBlank c) : TokensFrom offset (text ++ gap) tokens := by
  obtain ⟨runs, hruns, hwrites⟩ := h
  exact ⟨runs, hruns.append_blanks hgap, hwrites⟩

/-- A part of a text, from one of its tokens to another, has just the tokens between these. -/
theorem exists_part {before others after : List Token} {first : Token}
    (h : TokensFrom 0 text (before ++ (first :: others ++ after))) :
    let span := first.span.through (others.getLastD first).span
    ∃ part, part ≠ [] ∧ span.Covers text part ∧ TokensFrom span.start part (first :: others) := by
  intro span
  obtain ⟨front, gap, back, hcut, -, hback⟩ := h.exists_cut
  obtain ⟨part, gap', back', hcut', hpart, -⟩ := hback.exists_cut
  have hstart : span.start = byteLength (front ++ gap) := by
    have hfirst := hcut.start_eq first.span rfl
    rwa [Nat.zero_add, ← byteLength_append] at hfirst
  have hstop : span.stop = byteLength (front ++ gap) + byteLength part := by
    have hlast := hcut'.stop_eq _ (span_mem_getLast? (getLastD_mem_getLast? [] first others))
    rwa [Nat.zero_add] at hlast
  rw [Nat.zero_add, ← hstart] at hpart
  refine ⟨part, hpart.text_ne_nil, ⟨front ++ gap, gap' ++ back', ?_, hstart, hstop⟩, hpart⟩
  rw [List.append_assoc, ← hcut'.text_eq, ← hcut.text_eq]

theorem exists_gap {before after : List Token} {last next : Token}
    (h : TokensFrom 0 text (before ++ after)) (hlast : last ∈ before.getLast?)
    (hnext : next ∈ after.head?) :
    ∃ gap, gap ≠ [] ∧ (∀ c ∈ gap, isBlank c) ∧
      Span.Covers ⟨last.span.stop, next.span.start⟩ text gap := by
  obtain ⟨front, gap, back, hcut, -, -⟩ := h.exists_cut
  have hbefore := span_mem_getLast? hlast
  have hafter : next.span ∈ (after.map Token.span).head? := by
    rw [List.head?_map]
    exact Option.mem_map_of_mem Token.span hnext
  refine ⟨gap, hcut.gap_ne_nil ?_ ?_, hcut.isBlank_of_mem, front, back, hcut.text_eq, ?_, ?_⟩
  · exact List.ne_nil_of_mem (List.mem_of_getLast? hbefore)
  · exact List.ne_nil_of_mem (List.mem_of_mem_head? hafter)
  · rw [hcut.stop_eq _ hbefore, Nat.zero_add]
  · rw [hcut.start_eq _ hafter, Nat.zero_add]

theorem exists_front {before after : List Token} {next : Token}
    (h : TokensFrom 0 text (before ++ next :: after)) :
    ∃ front, Span.Covers ⟨0, next.span.start⟩ text front ∧ TokensFrom 0 front before := by
  obtain ⟨front, gap, back, hcut, hfront, -⟩ := h.exists_cut
  refine ⟨front ++ gap, ⟨[], back, ?_, rfl, ?_⟩, hfront.append_blanks hcut.isBlank_of_mem⟩
  · rw [hcut.text_eq, List.nil_append, List.append_assoc]
  · rw [hcut.start_eq next.span rfl, byteLength_append, byteLength_nil, Nat.zero_add, Nat.zero_add]

theorem exists_back {last : Token} (h : TokensFrom 0 text tokens)
    (hlast : last ∈ tokens.getLast?) :
    ∃ front back, text = front ++ back ∧ last.span.stop = byteLength front ∧
      ∀ c ∈ back, isBlank c := by
  rw [← List.append_nil tokens] at h
  obtain ⟨front, gap, back, hcut, -, -⟩ := h.exists_cut
  obtain rfl := hcut.back_eq_nil rfl
  have hstop := hcut.stop_eq last.span (span_mem_getLast? hlast)
  have htext := hcut.text_eq
  rw [Nat.zero_add] at hstop
  rw [List.append_nil] at htext
  exact ⟨front, gap, htext, hstop, hcut.isBlank_of_mem⟩

theorem exists_tokenize (h : TokensFrom offset text tokens) :
    ∃ tokens', tokenize text = .ok tokens' ∧
      tokens'.map Token.number = tokens.map Token.number := by
  obtain ⟨runs, hruns, hwrites⟩ := h
  obtain ⟨runs', hruns', htexts⟩ := hruns.move 0
  have hnumbers : List.Forall₂ Numeral.Writes (runs.map Lexeme.text)
      (tokens.map Token.number) := by
    rw [List.forall₂_map_left_iff, List.forall₂_map_right_iff]
    exact hwrites.imp fun _ _ hrun => hrun.1
  rw [← htexts, List.forall₂_map_left_iff] at hnumbers
  refine exists_tokenize_iff_spells.2 ⟨⟨runs', hruns', hnumbers⟩, fun number hnumber => ?_⟩
  obtain ⟨t, -, rfl⟩ := List.mem_map.1 hnumber
  exact fitsWord_toInt t.value

end TokensFrom

end ResidueMachine
