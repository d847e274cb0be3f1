import StyleRef.Sheet.Printer
import Mathlib.Data.List.SplitBy

/-
# Runs of rules under one query

The printer goes through the rules once, and all that it knows of the rules behind it
is the query of the block that is open.  Its text is compared here with one that is
made from the list as a whole: the rules are cut into the longest runs of neighbours
under the same query (`mediaRuns`), and each run is written by itself (`runText`).

What carries the comparison is that two lists are written in a row as they are written
alone, unless the second goes on in the block that the first leaves open
(`renderFrom_append_of_not_meets`).  From one run to the next the query changes, so it
never does; the text of all runs follows from that, run by run, and with it that each
rule stands in a block of its query (`inBlocks_render`).  Rules at the margin are the
case to be careful with: two lists may meet there without any change, but what is then
left out, the end of no block and the beginning of none, is empty.
-/

namespace StyleRef

namespace Stylesheet

/-! ## Two lists in a row -/

def headMedia (rs : List Rule) : Option Text := rs.head?.bind (·.media)

/-- The last rule of the one list and the first of the other are both under the query. -/
def MeetUnder (q : Text) (rs ts : List Rule) : Prop :=
  rs.getLast?.bind (·.media) = some q ∧ headMedia ts = some q

theorem opening_some (q : Text) : opening (some q) = "@media ".toList ++ q ++ [' ', '{', '\n'] := rfl

theorem lastMedia_none (rs : List Rule) : lastMedia none rs = rs.getLast?.bind (·.media) := by
  rw [lastMedia]
  cases rs.getLast? <;> rfl

/-- Where the query changes, one block ends and another begins.  At the margin this may be said
without a change. -/
theorem between_eq {a b : Option Text} (h : ∀ q, a = some q → b ≠ some q) :
    between a b = closing a ++ opening b := by
  rw [between]
  split
  · next hsame =>
    subst hsame
    cases b with
    | none => rfl
    | some q => exact absurd rfl (h q rfl)
  · rfl

/-- If the first rule is not under the query of the open block, the block is closed before. -/
theorem renderFrom_of_ne {current : Option Text} {rs : List Rule}
    (h : ∀ q, current = some q → headMedia rs ≠ some q) :
    renderFrom current rs = closing current ++ renderFrom none rs := by
  cases rs with
  | nil => exact (List.append_nil _).symm
  | cons r rs =>
    have hchange : between current r.media = closing current ++ opening r.media := between_eq h
    have hmargin : between none r.media = opening r.media := between_eq nofun
    simp only [renderFrom, hchange, hmargin, List.append_assoc]

theorem renderFrom_eq_renderOpen (rs : List Rule) :
    renderFrom none rs = renderOpen none rs ++ closing (lastMedia none rs) := by
  have happend := renderFrom_append none rs []
  rwa [List.append_nil] at happend

/-- Two lists that do not meet in a block are written as each is written alone. -/
theorem renderFrom_append_of_not_meets {rs ts : List Rule} (h : ∀ q, ¬ MeetUnder q rs ts) :
    renderFrom none (rs ++ ts) = renderFrom none rs ++ renderFrom none ts := by
  have hchange : ∀ q, lastMedia none rs = some q → headMedia ts ≠ some q := by
    rw [lastMedia_none]
    exact fun q hrs hts => h q ⟨hrs, hts⟩
  rw [renderFrom_append, renderFrom_of_ne hchange, ← List.append_assoc, ← renderFrom_eq_renderOpen]

/-- Two lists that meet in a block are written without the line that would close it and the line
that would open it again. -/
theorem renderFrom_append_of_meets {q : Text} {rs ts : List Rule} (h : MeetUnder q rs ts) :
    ∃ a b, renderFrom none rs = a ++ closing (some q) ∧
      renderFrom none ts = opening (some q) ++ b ∧ renderFrom none (rs ++ ts) = a ++ b := by
  obtain ⟨hrs, hts⟩ := h
  rw [← lastMedia_none] at hrs
  cases ts with
  | nil => cases hts
  | cons t ts =>
    have hmedia : t.media = some q := hts
    refine ⟨renderOpen none rs, line t ++ renderFrom t.media ts, ?_, ?_, ?_⟩
    · rw [renderFrom_eq_renderOpen, hrs]
    · have hmargin : between none (some q) = opening (some q) := between_eq nofun
      rw [renderFrom, hmedia, hmargin, List.append_assoc]
    · rw [renderFrom_append, hrs, renderFrom, between, if_pos hmedia, List.nil_append]

/-! ## Runs -/

/-- The rules in the longest runs of neighbours under the same query. -/
def mediaRuns (rs : List Rule) : List (List Rule) := rs.splitBy fun a b => a.media == b.media

/-- The text of a run.  Without a query each rule is a line; else the rules are indented, and stand
between a line that gives the query and a line that closes the block. -/
def runText (run : List Rule) : Text :=
  match headMedia run with
  | none => run.flatMap fun r => r.render ++ ['\n']
  | some q =>
    "@media ".toList ++ q ++ [' ', '{', '\n'] ++
      (run.flatMap fun r => [' ', ' '] ++ r.render ++ ['\n']) ++ ['}', '\n']

theorem media_of_mem_mediaRuns {rs run : List Rule} (h : run ∈ mediaRuns rs) :
    ∀ r ∈ run, r.media = headMedia run := by
  have hneighbours : run.IsChain fun a b => a.media = b.media :=
    (List.isChain_of_mem_splitBy h).imp fun a b hab => eq_of_beq hab
  have hsame : (run.map (·.media)).Pairwise (· = ·) := ((List.isChain_map _).mpr hneighbours).pairwise
  intro r hr
  cases run with
  | nil => cases hr
  | cons a run =>
    rcases List.mem_cons.mp hr with rfl | hr
    · rfl
    · exact (List.rel_of_pairwise_cons hsame (List.mem_map_of_mem hr)).symm

/-- Neighbouring runs do not meet under a query. -/
theorem isChain_mediaRuns (rs : List Rule) :
    (mediaRuns rs).IsChain fun a b => ∀ q, ¬ MeetUnder q a b := by
  refine (List.isChain_getLast_head_splitBy _ rs).imp ?_
  rintro a b ⟨ha, hb, hne⟩ q ⟨hlast, hhead⟩
  rw [List.getLast?_eq_some_getLast ha] at hlast
  rw [headMedia, List.head?_eq_some_head hb] at hhead
  exact ne_of_beq_false hne (Eq.trans hlast hhead.symm)

theorem renderFrom_of_media {media : Option Text} {rs : List Rule}
    (h : ∀ r ∈ rs, r.media = media) : renderFrom media rs = rs.flatMap line ++ closing media := by
  induction rs with
  | nil => rfl
  | cons r rs ih =>
    obtain ⟨rfl, hrs⟩ := List.forall_mem_cons.mp h
    rw [renderFrom, between, if_pos rfl, ih hrs, List.flatMap_cons, List.nil_append,
      List.append_assoc]

theorem runText_eq_block {run : List Rule} (h : ∀ r ∈ run, r.media = headMedia run) :
    runText run = block (headMedia run) run := by
  rw [runText, block]
  cases hmedia : headMedia run with
  | none =>
    rw [hmedia] at h
    have hline : run.flatMap line = run.flatMap fun r => r.render ++ ['\n'] :=
      List.flatMap_congr fun r hr => by rw [line, h r hr]; rfl
    rw [hline]
    exact (List.append_nil _).symm
  | some q =>
    rw [hmedia] at h
    have hline : run.flatMap line = run.flatMap fun r => [' ', ' '] ++ r.render ++ ['\n'] :=
      List.flatMap_congr fun r hr => by rw [line, h r hr]; rfl
    rw [hline]
    exact List.append_assoc _ _ _

/-- The rules of one query are written as a run. -/
theorem renderFrom_eq_runText {run : List Rule} (h : ∀ r ∈ run, r.media = headMedia run) :
    renderFrom none run = runText run := by
  rw [runText_eq_block h]
  cases run with
  | nil => rfl
  | cons r run =>
    have hrest : ∀ a ∈ run, a.media = r.media := (List.forall_mem_cons.mp h).2
    have hmedia : headMedia (r :: run) = r.media := rfl
    have hmargin : between none r.media = opening r.media := between_eq nofun
    rw [renderFrom, hmargin, renderFrom_of_media hrest, hmedia, block, List.flatMap_cons]
    simp only [List.append_assoc]

/-- Runs that do not meet are written one after the other. -/
theorem renderFrom_flatten {runs : List (List Rule)} (hne : [] ∉ runs)
    (hsame : ∀ run ∈ runs, ∀ r ∈ run, r.media = headMedia run)
    (hchain : runs.IsChain fun a b => ∀ q, ¬ MeetUnder q a b) :
    renderFrom none runs.flatten = runs.flatMap runText := by
  induction runs with
  | nil => rfl
  | cons run runs ih =>
    obtain ⟨hrun, hruns⟩ := List.forall_mem_cons.mp hsame
    have hrest : [] ∉ runs := fun h => hne (List.mem_cons_of_mem _ h)
    have hapart : ∀ q, ¬ MeetUnder q run runs.flatten := by
      rintro q ⟨hlast, hhead⟩
      cases runs with
      | nil => cases hhead
      | cons next runs =>
        cases next with
        | nil => exact hrest List.mem_cons_self
        | cons r next => exact (List.isChain_cons_cons.mp hchain).1 q ⟨hlast, hhead⟩
    rw [List.flatten_cons, renderFrom_append_of_not_meets hapart, renderFrom_eq_runText hrun,
      ih hrest hruns hchain.of_cons, List.flatMap_cons]

theorem flatten_mediaRuns (rs : List Rule) : (mediaRuns rs).flatten = rs :=
  List.flatten_splitBy _ rs

theorem renderFrom_eq_mediaRuns (rs : List Rule) :
    renderFrom none rs = (mediaRuns rs).flatMap runText := by
  have hruns := renderFrom_flatten (List.nil_notMem_splitBy _ rs)
    (fun run hrun => media_of_mem_mediaRuns hrun) (isChain_mediaRuns rs)
  rwa [← mediaRuns, flatten_mediaRuns] at hruns

/-- A sheet is written block by block: each rule stands in a block of its query. -/
theorem inBlocks_render (s : Stylesheet) : InBlocks s.rules s.render := by
  refine ⟨(mediaRuns s.rules).map fun run => (headMedia run, run), ?_, ?_, ?_⟩
  · rw [List.flatMap_map]
    exact (flatten_mediaRuns s.rules).symm.trans List.flatMap_id.symm
  · intro g hg
    obtain ⟨run, hrun, rfl⟩ := List.mem_map.mp hg
    exact ⟨List.ne_nil_of_mem_splitBy hrun, media_of_mem_mediaRuns hrun⟩
  · rw [render, renderFrom_eq_mediaRuns, List.flatMap_map]
    exact List.flatMap_congr fun run hrun => runText_eq_block (media_of_mem_mediaRuns hrun)

/-- A sheet is written run by run.  Two sheets in a row are written as each is written alone, if and
only if they do not meet under a query; if they do, the block that the first would close is not
closed, and the second does not open it again. -/
theorem render_mediaRuns (s : Stylesheet) :
    s.render = (mediaRuns s.rules).flatMap runText ∧
      ∀ s₁ s₂ : Stylesheet, s.rules = s₁.rules ++ s₂.rules →
        (s.render = s₁.render ++ s₂.render ↔ ¬ ∃ q, MeetUnder q s₁.rules s₂.rules) ∧
        ∀ q, MeetUnder q s₁.rules s₂.rules →
          ∃ a b, s₁.render = a ++ ['}', '\n'] ∧
            s₂.render = "@media ".toList ++ q ++ [' ', '{', '\n'] ++ b ∧ s.render = a ++ b := by
  refine ⟨renderFrom_eq_mediaRuns s.rules, fun s₁ s₂ hsplit => ⟨?_, fun q hmeet => ?_⟩⟩
  · rw [render, render, render, hsplit]
    constructor
    · rintro halone ⟨q, hmeet⟩
      -- what is left out is not empty
      obtain ⟨a, b, h₁, h₂, h⟩ := renderFrom_append_of_meets hmeet
      have hclosing : (closing (some q)).length = 2 := rfl
      have hlength := congrArg List.length halone
      rw [h₁, h₂, h] at hlength
      simp only [List.length_append, hclosing] at hlength
      omega
    · intro hmeet
      exact renderFrom_append_of_not_meets (not_exists.mp hmeet)
  · obtain ⟨a, b, h₁, h₂, h⟩ := renderFrom_append_of_meets hmeet
    refine ⟨a, b, ?_, ?_, ?_⟩
    · exact h₁
    · rw [render, h₂, opening_some]
    · rw [render, hsplit, h]

/-- An empty query is a query, and rules under it stand in a block. -/
example :
    render ⟨[⟨".a".toList, [], some []⟩, ⟨".b".toList, [], some []⟩, ⟨".c".toList, [], none⟩]⟩ =
      "@media  \x7b\n  .a \x7b\x7d\n  .b \x7b\x7d\n\x7d\n.c \x7b\x7d\n".toList := by
  decide

end Stylesheet

end StyleRef
