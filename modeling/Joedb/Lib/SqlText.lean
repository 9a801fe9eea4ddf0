import Joedb.Lib.Bytes

/-!
# The text of SQL

A reader of SQL takes every byte for code, for a part of a comment or for a part of a quoted
token, and it knows which from what comes before. A comment starts with two dashes and ends with
the line. A quoted token ends with its quote, unless the next byte is the same quote: two of them
stand for one, and so the end of a token is not known before the byte behind it.

A program that writes SQL with foreign text in it has two ways to keep that text apart. Either it
is `Enclosed` in a token, which depends on the quotes of the text only: they must come in pairs.
Or it is `Commented`: every line it is on begins with two dashes. A line that the text itself
begins is one of those lines.
-/

namespace SqlText

open ByteFile

inductive State where
  | code
  /-- Behind a dash. -/
  | dash
  | comment
  | quoted (q : UInt8)
  /-- Behind a quote in a token: the token ends there, unless the quote comes again. -/
  | closing (q : UInt8)
  deriving DecidableEq, Repr

namespace State

def start (c : UInt8) : State :=
  if c = 34 ∨ c = 39 then .quoted c else if c = 45 then .dash else .code

def step : State → UInt8 → State
  | .code, c => start c
  | .dash, c => if c = 45 then .comment else start c
  | .comment, c => if c = 10 then .code else .comment
  | .quoted q, c => if c = q then .closing q else .quoted q
  | .closing q, c => if c = q then .quoted q else start c

def run (st : State) (s : Bytes) : State := s.foldl step st

variable {st : State} {q : UInt8}

@[simp] theorem run_nil : run st [] = st := rfl

@[simp] theorem run_cons (c : UInt8) (s : Bytes) : run st (c :: s) = run (step st c) s := rfl

@[simp] theorem run_append (s t : Bytes) : run st (s ++ t) = run (run st s) t :=
  List.foldl_append

theorem start_ne {c : UInt8} (h : c ≠ q) : start c ≠ .quoted q ∧ start c ≠ .closing q := by
  rw [start]
  split
  · exact ⟨fun he => h (State.quoted.inj he), nofun⟩
  · split
    · exact ⟨nofun, nofun⟩
    · exact ⟨nofun, nofun⟩

/-- A comment goes on while the line does. -/
theorem run_comment {s : Bytes} (h : 10 ∉ s) : run .comment s = .comment := by
  induction s with
  | nil => rfl
  | cons c s ih =>
      rw [List.mem_cons, not_or] at h
      rw [run_cons, step, if_neg (Ne.symm h.1)]
      exact ih h.2

/-- Text without quotes, in which no dash is next to another one. -/
structure Plain (s : Bytes) : Prop where
  unquoted : ∀ c ∈ s, c ≠ 34 ∧ c ≠ 39
  apart : ¬ [45, 45] <:+: s

theorem step_code {c : UInt8} (h : c ≠ 34 ∧ c ≠ 39) :
    step .code c = if c = 45 then .dash else .code :=
  if_neg (not_or.mpr h)

/-- It is code, and nothing behind it is read as anything else on its account. -/
theorem Plain.run_code {s : Bytes} (h : Plain s)
    (hstart : st = .code ∨ st = .dash ∧ s.head? ≠ some 45) :
    run st s = .code ∨ run st s = .dash := by
  induction s generalizing st with
  | nil => exact hstart.imp id And.left
  | cons c s ih =>
      have hc := h.unquoted c List.mem_cons_self
      have hs : Plain s := ⟨fun d hd => h.unquoted d (List.mem_cons_of_mem _ hd),
        fun hdashes => h.apart (hdashes.trans (List.suffix_cons c s).isInfix)⟩
      have hstep : step st c = if c = 45 then .dash else .code := by
        rcases hstart with rfl | ⟨rfl, hhead⟩
        · exact step_code hc
        · rw [step, if_neg fun he => hhead (congrArg some he)]
          exact step_code hc
      rw [run_cons, hstep]
      split
      · next hdash =>
          refine ih hs (.inr ⟨rfl, fun hhead => h.apart ?_⟩)
          obtain ⟨t, rfl⟩ := List.head?_eq_some_iff.mp hhead
          rw [hdash]
          exact ⟨[], t, rfl⟩
      · exact ih hs (.inl rfl)

end State

open State

/-! ## Quoted tokens -/

/-- The token that `s` is in: none of it is behind the token's end, and the token is open at its
end. -/
structure Enclosed (q : UInt8) (st : State) (s : Bytes) : Prop where
  starts : st = .quoted q
  stays : ∀ u, u <+: s → run st u = .quoted q ∨ run st u = .closing q
  ends : run st s = .quoted q

/-- Every quote is next to its twin. -/
def Paired (q : UInt8) : Bytes → Bool
  | [] => true
  | [c] => c ≠ q
  | c :: d :: s => if c = q then d = q && Paired q s else Paired q (d :: s)

theorem stays_cons {q : UInt8} {st : State} {c : UInt8} {s : Bytes} :
    (∀ u, u <+: c :: s → run st u = .quoted q ∨ run st u = .closing q) ↔
      (st = .quoted q ∨ st = .closing q) ∧
        ∀ u, u <+: s → run (step st c) u = .quoted q ∨ run (step st c) u = .closing q := by
  refine ⟨fun h => ⟨h [] (List.nil_prefix), fun u hu => h (c :: u) ?_⟩, fun h u hu => ?_⟩
  · exact (List.prefix_cons_inj c).mpr hu
  · rcases List.prefix_cons_iff.mp hu with rfl | ⟨t, rfl, ht⟩
    · exact h.1
    · exact h.2 t ht

theorem enclosed_cons_of_ne {q c : UInt8} {s : Bytes} (h : c ≠ q) :
    Enclosed q (.quoted q) (c :: s) ↔ Enclosed q (.quoted q) s := by
  have hstep : step (.quoted q) c = .quoted q := if_neg h
  refine ⟨fun he => ⟨rfl, ?_, ?_⟩, fun he => ⟨rfl, stays_cons.mpr ⟨.inl rfl, ?_⟩, ?_⟩⟩
  · have hrest := (stays_cons.mp he.stays).2
    rwa [hstep] at hrest
  · have hends := he.ends
    rwa [run_cons, hstep] at hends
  · rw [hstep]
    exact he.stays
  · rw [run_cons, hstep]
    exact he.ends

theorem enclosed_pair {q : UInt8} {s : Bytes} :
    Enclosed q (.quoted q) (q :: q :: s) ↔ Enclosed q (.quoted q) s := by
  have hfirst : step (.quoted q) q = .closing q := if_pos rfl
  have hsecond : step (.closing q) q = .quoted q := if_pos rfl
  refine ⟨fun he => ⟨rfl, ?_, ?_⟩, fun he => ⟨rfl, ?_, ?_⟩⟩
  · have hrest := (stays_cons.mp (stays_cons.mp he.stays).2).2
    rwa [hfirst, hsecond] at hrest
  · have hends := he.ends
    rwa [run_cons, hfirst, run_cons, hsecond] at hends
  · rw [stays_cons, hfirst, stays_cons, hsecond]
    exact ⟨.inl rfl, .inr rfl, he.stays⟩
  · rw [run_cons, hfirst, run_cons, hsecond]
    exact he.ends

theorem not_enclosed_single {q c : UInt8} {s : Bytes} (h : c ≠ q) :
    ¬ Enclosed q (.quoted q) (q :: c :: s) := by
  intro he
  have hfirst : step (.quoted q) q = .closing q := if_pos rfl
  have hsecond : step (.closing q) c = start c := if_neg h
  have hrest := (stays_cons.mp (stays_cons.mp he.stays).2).2 [] List.nil_prefix
  rw [hfirst, hsecond] at hrest
  exact hrest.elim (start_ne h).1 (start_ne h).2

/-- What a token may have in it. -/
theorem enclosed_iff {q : UInt8} {s : Bytes} :
    Enclosed q (.quoted q) s ↔ Paired q s = true := by
  fun_induction Paired q s with
  | case1 => exact ⟨fun _ => rfl, fun _ => ⟨rfl, fun u hu => by simp_all, rfl⟩⟩
  | case2 c =>
      rw [decide_eq_true_iff]
      refine ⟨fun he hc => ?_, fun hc => (enclosed_cons_of_ne hc).mpr
        ⟨rfl, fun u hu => by simp_all, rfl⟩⟩
      have hends := he.ends
      rw [hc, run_cons, show step (.quoted q) q = .closing q from if_pos rfl] at hends
      cases hends
  | case3 d s ih =>
      rw [Bool.and_eq_true, decide_eq_true_iff]
      refine ⟨fun he => ?_, ?_⟩
      · by_cases hd : d = q
        · subst hd
          exact ⟨rfl, ih.mp (enclosed_pair.mp he)⟩
        · exact absurd he (not_enclosed_single hd)
      · rintro ⟨rfl, hs⟩
        exact enclosed_pair.mpr (ih.mpr hs)
  | case4 c d s hc ih => rw [enclosed_cons_of_ne hc, ih]

/-- Text without the quote. -/
theorem paired_of_not_mem {q : UInt8} {s : Bytes} (h : q ∉ s) : Paired q s = true := by
  fun_induction Paired q s with
  | case1 => rfl
  | case2 c => exact decide_eq_true fun hc => h (hc ▸ List.mem_cons_self)
  | case3 d s => exact absurd List.mem_cons_self h
  | case4 c d s hc ih => exact ih fun hmem => h (List.mem_cons_of_mem _ hmem)

/-! ## Comment lines -/

/-- What is behind the last newline. -/
def lineBehind (s : Bytes) : Bytes := (s.reverse.takeWhile (· ≠ 10)).reverse

/-- The lines that are complete. -/
def linesBefore (s : Bytes) : Bytes := (s.reverse.dropWhile (· ≠ 10)).reverse

/-- The byte at the head of `rest` is on a line that is a comment. -/
structure OnCommentLine (before rest : Bytes) : Prop where
  code : run .code (linesBefore before) = .code
  dashes : [45, 45] <+: lineBehind before ++ rest.takeWhile (· ≠ 10)

/-- So is every byte of `s`. -/
def Commented (before s : Bytes) : Prop :=
  ∀ u v, s = u ++ v → v ≠ [] → OnCommentLine (before ++ u) v

/-- Two dashes are behind every newline. -/
def Continued : Bytes → Bool
  | [] => true
  | c :: s => (c ≠ 10 || [45, 45].isPrefixOf s) && Continued s

/-- A line begins here, and it begins as code. -/
structure Fresh (before : Bytes) : Prop where
  code : run .code before = .code
  line : lineBehind before = []

theorem fresh_nil : Fresh [] := ⟨rfl, rfl⟩

theorem lineBehind_newline (s : Bytes) : lineBehind (s ++ [10]) = [] := by
  simp [lineBehind]

/-- A line goes on. -/
theorem line_append (before : Bytes) {s : Bytes} (h : 10 ∉ s) :
    lineBehind (before ++ s) = lineBehind before ++ s ∧
      linesBefore (before ++ s) = linesBefore before := by
  have hall : ∀ c ∈ s.reverse, decide (c ≠ 10) = true := fun c hc =>
    decide_eq_true fun he => h (he ▸ List.mem_reverse.mp hc)
  rw [lineBehind, linesBefore, List.reverse_append, List.takeWhile_append_of_pos hall,
    List.dropWhile_append_of_pos hall, List.reverse_append, List.reverse_reverse]
  exact ⟨rfl, rfl⟩

theorem linesBefore_of_line {before : Bytes} (h : lineBehind before = []) :
    linesBefore before = before := by
  have htaken : before.reverse.takeWhile (· ≠ 10) = [] := List.reverse_eq_nil_iff.mp h
  have hall := List.takeWhile_append_dropWhile (p := (· ≠ (10 : UInt8))) (l := before.reverse)
  rw [htaken, List.nil_append] at hall
  rw [linesBefore, hall, List.reverse_reverse]

theorem Fresh.append {before s : Bytes} (h : Fresh before) (hs : run .code s = .code)
    (hline : s.getLast? = some 10) : Fresh (before ++ s) := by
  refine ⟨by rw [run_append, h.code, hs], ?_⟩
  obtain ⟨t, rfl⟩ := List.getLast?_eq_some_iff.mp hline
  rw [← List.append_assoc]
  exact lineBehind_newline _

theorem takeWhile_newline (s t : Bytes) :
    (s ++ [10] ++ t).takeWhile (· ≠ 10) = (s ++ [10]).takeWhile (· ≠ 10) := by
  induction s with
  | nil => simp
  | cons c s ih =>
      by_cases hc : c = 10
      · simp [hc]
      · simp only [List.cons_append, List.takeWhile_cons, ih]

theorem takeWhile_line {l : Bytes} (h : 10 ∉ l) : (l ++ [10]).takeWhile (· ≠ 10) = l := by
  have hall : ∀ c ∈ l, decide (c ≠ 10) = true := fun c hc =>
    decide_eq_true fun he => h (he ▸ hc)
  rw [List.takeWhile_append_of_pos hall]
  exact List.append_nil l

theorem exists_concat {s : Bytes} (h : s ≠ []) : ∃ t c, s = t ++ [c] :=
  ⟨_, _, (List.dropLast_concat_getLast h).symm⟩

/-- A newline is no dash. -/
theorem dashes_of_append {s t : Bytes} (h : [45, 45] <+: s ++ 10 :: t) : [45, 45] <+: s := by
  match s with
  | [] => simp at h
  | [_] => simp at h
  | _ :: _ :: _ => simpa using h

/-- The first line, and the rest. -/
theorem Commented.append {before l s : Bytes} (h : Commented before (l ++ [10]))
    (hs : Commented (before ++ (l ++ [10])) s) : Commented before (l ++ [10] ++ s) := by
  intro u v huv hv
  rcases List.append_eq_append_iff.mp huv with ⟨w, rfl, hw⟩ | ⟨w, hw, rfl⟩
  · have hrest := hs w v hw hv
    rwa [List.append_assoc] at hrest
  · by_cases hnil : w = []
    · subst hnil
      have hrest := hs [] s rfl hv
      rw [List.append_nil] at hw hrest
      rwa [hw] at hrest
    · have hfirst := h u w hw hnil
      obtain ⟨w, c, rfl⟩ := exists_concat hnil
      rw [← List.append_assoc] at hw
      obtain ⟨-, hc⟩ := List.append_inj' hw rfl
      obtain ⟨rfl, -⟩ := List.cons.inj hc
      exact ⟨hfirst.code, by rw [takeWhile_newline]; exact hfirst.dashes⟩

theorem commented_line {before l : Bytes} (h : Fresh before) (hdashes : [45, 45] <+: l)
    (hl : 10 ∉ l) : Commented before (l ++ [10]) := by
  intro u v huv hv
  obtain ⟨w, c, rfl⟩ := exists_concat hv
  rw [← List.append_assoc] at huv
  obtain ⟨rfl, hc⟩ := List.append_inj' huv rfl
  obtain ⟨rfl, -⟩ := List.cons.inj hc
  have hu : 10 ∉ u := fun hmem => hl (List.mem_append_left _ hmem)
  have hw : 10 ∉ w := fun hmem => hl (List.mem_append_right _ hmem)
  obtain ⟨hbehind, hbefore⟩ := line_append before hu
  refine ⟨?_, ?_⟩
  · rw [hbefore, linesBefore_of_line h.line]
    exact h.code
  · rw [hbehind, h.line, takeWhile_line hw]
    exact hdashes

theorem run_commented_line {l : Bytes} (hdashes : [45, 45] <+: l) (hl : 10 ∉ l) :
    run .code (l ++ [10]) = .code := by
  obtain ⟨t, rfl⟩ := hdashes
  have ht : 10 ∉ t := fun hmem => hl (List.mem_append_right _ hmem)
  rw [List.append_assoc, run_append, run_append,
    show run .code [45, 45] = .comment from rfl, run_comment ht]
  rfl

/-- What begins as a comment line stays one if every newline in it begins another one. The
induction is on what is left of the text, with the line so far as `head`. -/
theorem commented_of_continued {before head s : Bytes} (h : Fresh before)
    (hdashes : [45, 45] <+: head ++ s) (hhead : 10 ∉ head) (hs : Continued s = true) :
    Commented before (head ++ s ++ [10]) ∧ run .code (head ++ s ++ [10]) = .code := by
  induction s generalizing before head with
  | nil =>
      rw [List.append_nil] at hdashes ⊢
      exact ⟨commented_line h hdashes hhead, run_commented_line hdashes hhead⟩
  | cons c s ih =>
      rw [Continued, Bool.and_eq_true] at hs
      by_cases hc : c = 10
      · subst hc
        have hfirst : [45, 45] <+: head := dashes_of_append hdashes
        have hnext : [45, 45] <+: [] ++ s := by simpa using hs.1
        have hline := run_commented_line hfirst hhead
        obtain ⟨hcommented, hrun⟩ := ih
          (h.append hline List.getLast?_concat) hnext List.not_mem_nil hs.2
        rw [List.nil_append] at hcommented hrun
        rw [show head ++ 10 :: s ++ [10] = head ++ [10] ++ (s ++ [10]) by simp]
        exact ⟨(commented_line h hfirst hhead).append hcommented, by rw [run_append, hline, hrun]⟩
      · rw [List.append_cons head c s] at hdashes ⊢
        refine ih h hdashes (fun hmem => ?_) hs.2
        rcases List.mem_append.mp hmem with hmem | hmem
        · exact hhead hmem
        · exact hc (List.mem_singleton.mp hmem).symm

theorem continued_of_commented {before head s : Bytes}
    (h : Commented before (head ++ s ++ [10])) : Continued s = true := by
  induction s generalizing head with
  | nil => rfl
  | cons c s ih =>
      rw [List.append_cons head c s] at h
      rw [Continued, Bool.and_eq_true]
      refine ⟨?_, ih h⟩
      by_cases hc : c = 10
      · subst hc
        have hline := (h (head ++ [10]) (s ++ [10]) (by simp) (List.concat_ne_nil _ _)).dashes
        rw [← List.append_assoc, lineBehind_newline, List.nil_append] at hline
        have hnext := dashes_of_append (hline.trans (List.takeWhile_prefix _))
        simpa using hnext
      · simp [hc]

/-- What may follow two dashes. -/
theorem commented_iff {before head s : Bytes} (h : Fresh before) (hdashes : [45, 45] <+: head)
    (hhead : 10 ∉ head) : Commented before (head ++ s ++ [10]) ↔ Continued s = true :=
  ⟨continued_of_commented, fun hs =>
    (commented_of_continued h (hdashes.trans (List.prefix_append _ _)) hhead hs).1⟩

theorem Fresh.comment {before head s : Bytes} (h : Fresh before) (hdashes : [45, 45] <+: head)
    (hhead : 10 ∉ head) (hs : Continued s = true) : Fresh (before ++ (head ++ s ++ [10])) :=
  h.append (commented_of_continued h (hdashes.trans (List.prefix_append _ _)) hhead hs).2
    List.getLast?_concat

theorem continued_of_not_mem {s : Bytes} (h : 10 ∉ s) : Continued s = true := by
  induction s with
  | nil => rfl
  | cons c s ih =>
      rw [List.mem_cons, not_or] at h
      rw [Continued, ih h.2, Bool.and_true, decide_eq_true (Ne.symm h.1), Bool.true_or]

end SqlText
