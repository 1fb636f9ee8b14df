import Fabula.Proofs.Scan.Tiling
import Mathlib

namespace Fabula

namespace Text

/-- The text with a carriage return before each line feed. -/
def crlf : List Char → List Char
  | [] => []
  | c :: cs => if c = '\n' then '\r' :: '\n' :: crlf cs else c :: crlf cs

@[simp]
theorem crlf_append (s t : List Char) : crlf (s ++ t) = crlf s ++ crlf t := by
  fun_induction crlf s with
  | case1 => rfl
  | case2 cs ih => simp [crlf, ih]
  | case3 c cs hc ih => simp [crlf, hc, ih]

@[simp]
theorem crlf_eq_nil {s : List Char} : crlf s = [] ↔ s = [] := by
  unfold crlf
  split
  · simp
  · split <;> simp

theorem mem_crlf {s : List Char} {c : Char} (hc : c ≠ '\r') : c ∈ crlf s ↔ c ∈ s := by
  fun_induction crlf s with
  | case1 => rfl
  | case2 cs ih => simp [ih, hc]
  | case3 d cs hd ih => simp [ih]

@[simp]
theorem getLast?_crlf (s : List Char) : (crlf s).getLast? = s.getLast? := by
  fun_induction crlf s with
  | case1 => rfl
  | case2 cs ih => simp [List.getLast?_cons, ih]
  | case3 c cs hc ih => simp [List.getLast?_cons, ih]

theorem head?_crlf_ne (s : List Char) : (crlf s).head? ≠ some '\n' := by
  unfold crlf
  split
  · simp
  · split
    · simp
    · rename_i hc
      simpa using hc

/-- A text with a carriage return before each line feed. -/
def returned (s : String) : String := String.ofList (crlf s.toList)

@[simp]
theorem returned_append (s t : String) : returned (s ++ t) = returned s ++ returned t := by
  simp [returned]

theorem length_crlf_pos {s : List Char} : 0 < (crlf s).length ↔ 0 < s.length := by
  rw [List.length_pos_iff, List.length_pos_iff, ne_eq, ne_eq, crlf_eq_nil]

end Text

namespace Place

variable {p q r : Place} {s t : List Char} {c : Char}

def crlf (p : Place) : Place := ⟨p.before, Text.crlf p.after, _, rfl⟩

@[simp]
theorem after_crlf (p : Place) : p.crlf.after = Text.crlf p.after := rfl

theorem left_crlf_eq_zero : p.crlf.left = 0 ↔ p.left = 0 := by
  rw [p.crlf.left_eq, p.left_eq, List.length_eq_zero_iff, List.length_eq_zero_iff, after_crlf,
    Text.crlf_eq_nil]

theorem Passes.crlf (h : p.Passes s q) : p.crlf.Passes (Text.crlf s) q.crlf := by
  refine ⟨?_, ?_⟩
  · rw [after_crlf, h.after, Text.crlf_append, after_crlf]
  · rw [Text.getLast?_crlf]
    exact h.before

theorem crlf_eq_self (h : p.after = []) : p.crlf = p :=
  eq_of_sides rfl (by rw [after_crlf, h]; rfl)

theorem Passes.not_mem (h : p.Passes s q) (hc : c ∉ p.after) : c ∉ q.after := by
  rw [h.after] at hc
  exact fun hmem => hc (List.mem_append_right _ hmem)

/-- Of two places behind one the earlier has more left, with carriage returns and without. -/
theorem Passes.left_crlf_lt_iff (hq : p.Passes s q) (hr : p.Passes t r) :
    q.crlf.left < r.crlf.left ↔ q.left < r.left := by
  have hlength (p : Place) : p.crlf.left = (Text.crlf p.after).length := rfl
  rw [hlength, hlength, q.left_eq, r.left_eq]
  rcases List.append_eq_append_iff.mp (hq.after.symm.trans hr.after) with
      ⟨u, -, hu⟩ | ⟨u, -, hu⟩
  · rw [hu, Text.crlf_append, List.length_append, List.length_append]
    omega
  · have hpos := Text.length_crlf_pos (s := u)
    rw [hu, Text.crlf_append, List.length_append, List.length_append]
    omega

def beforeFeed (rest : List Char) : Place := ⟨some '\r', '\n' :: Text.crlf rest, _, rfl⟩

theorem next?_crlf (h : p.next? = some (c, q)) (hc : c ≠ '\n') :
    p.crlf.next? = some (c, q.crlf) := by
  have hpasses := (Passes.next h).crlf
  rw [Text.crlf, if_neg hc] at hpasses
  exact hpasses.next?_eq

theorem next?_crlf_feed (h : p.next? = some ('\n', q)) :
    p.crlf.next? = some ('\r', beforeFeed q.after) ∧
      (beforeFeed q.after).next? = some ('\n', q.crlf) := by
  have hpasses := Passes.next h
  have hreturn : p.crlf.Passes ['\r'] (beforeFeed q.after) := by
    refine ⟨?_, rfl⟩
    rw [after_crlf, hpasses.after]
    rfl
  have hfeed : (beforeFeed q.after).Passes ['\n'] q.crlf := ⟨rfl, hpasses.before⟩
  exact ⟨hreturn.next?_eq, hfeed.next?_eq⟩

end Place

namespace Pattern

variable {α : Type} {p q : Place} {k : Place → Option α} {accepts : Char → Bool} {c : Char}

theorem run_one_end (h : p.after = []) : (one accepts).run p k = none := by
  rcases hnext : p.next? with - | ⟨c, q⟩
  · rw [run, hnext]
  · rw [(Place.Passes.next hnext).after] at h
    cases h

theorem run_one (h : p.next? = some (c, q)) :
    (one accepts).run p k = if accepts c then k q else none := by
  rw [run, h]

/-- A pattern goes the same way through a text with carriage returns, as long as what comes
after it does. -/
def Insensitive (pattern : Pattern) : Prop :=
  ∀ (α β : Type) (f : α → β) (p : Place) (k : Place → Option α) (k' : Place → Option β),
    '\r' ∉ p.after →
    (∀ text q, pattern.Takes text → p.Passes text q → k' q.crlf = (k q).map f) →
      pattern.run p.crlf k' = (pattern.run p k).map f

theorem insensitive_empty : Insensitive empty := follows_empty

theorem insensitive_one (hfeed : accepts '\n' = false) (hreturn : accepts '\r' = false) :
    Insensitive (one accepts) := by
  intro α β f p k k' _ h
  rcases p.end_or_next with hend | ⟨c, q, hnext⟩
  · rw [run_one_end hend, run_one_end (by rw [Place.crlf_eq_self hend]; exact hend)]
    rfl
  · rw [run_one hnext]
    by_cases hc : c = '\n'
    · subst hc
      rw [run_one (Place.next?_crlf_feed hnext).1, hfeed, hreturn]
      rfl
    · rw [run_one (Place.next?_crlf hnext hc)]
      split
      · rename_i haccepts
        exact h [c] q ⟨c, haccepts, rfl⟩ (.next hnext)
      · rfl

theorem insensitive_check {holds : Place → Bool}
    (hholds : ∀ p : Place, holds p.crlf = holds p) : Insensitive (check holds) := by
  intro α β f p k k' _ h
  rw [run, run, hholds]
  split
  · exact h [] p rfl (.refl p)
  · rfl

namespace Insensitive

variable {first second body : Pattern}

theorem seq (hf : Insensitive first) (hs : Insensitive second) :
    Insensitive (seq first second) :=
  Follows.seq (fun _ _ _ hp hq => hq.not_mem hp) hf hs

theorem alt (hf : Insensitive first) (hs : Insensitive second) :
    Insensitive (alt first second) :=
  Follows.alt hf hs

theorem star {greedy : Bool} (hb : Insensitive body)
    (hne : ∀ text, body.Takes text → text ≠ []) : Insensitive (star greedy body) := by
  apply Follows.star (fun _ _ _ hp hq => hq.not_mem hp) _ hb hne
  · intro p text q htext hq
    exact hq.crlf.left_lt_iff.mpr fun hnil => hne text htext (Text.crlf_eq_nil.mp hnil)
  · intro p
    rw [Place.after_crlf, Text.crlf_eq_nil]

theorem match? {pattern : Pattern} (h : Insensitive pattern) (hp : '\r' ∉ p.after) :
    pattern.match? p.crlf = (pattern.match? p).map Place.crlf :=
  Follows.match? h hp

end Insensitive

theorem insensitive_text {cs : List Char} (h : ∀ c ∈ cs, c ≠ '\n' ∧ c ≠ '\r') :
    Insensitive (text cs) := by
  have hchar {c : Char} (hc : c ≠ '\n' ∧ c ≠ '\r') : Insensitive (char c) :=
    insensitive_one (by simpa using hc.1.symm) (by simpa using hc.2.symm)
  fun_induction text cs with
  | case1 => exact insensitive_empty
  | case2 c => exact hchar (h c List.mem_cons_self)
  | case3 c cs hne ih =>
    exact (hchar (h c List.mem_cons_self)).seq (ih fun d hd => h d (List.mem_cons_of_mem _ hd))

end Pattern

theorem Place.In.not_mem {p : Place} {source : List Char} {c : Char} (h : p.In source)
    (hc : c ∉ source) : c ∉ p.after := by
  obtain ⟨s, hs⟩ := h
  exact hs.not_mem hc

/-- A pattern matches in the text with carriage returns just where it matches in the text
without, and does not begin to match between the two characters of a line end. -/
structure Pattern.Steady (pattern : Pattern) (source : List Char) : Prop where
  matched : ∀ p : Place, p.In source → pattern.match? p.crlf = (pattern.match? p).map Place.crlf
  between : ∀ p q : Place, p.In source → p.next? = some ('\n', q) → pattern.match? p = none →
    pattern.match? (.beforeFeed q.after) = none

def Hit.crlf {τ : Type} (hit : Hit τ) : Hit τ := ⟨hit.effect, hit.start.crlf, hit.stop.crlf⟩

def Stretch.crlf {τ : Type} : Stretch τ → Stretch τ
  | unclaimed text => unclaimed (Text.crlf text)
  | claimed effect text => claimed effect (Text.crlf text)

/-- The second token is the first one with carriage returns, wherever it stands. -/
def Token.Returned {τ : Type} (t t' : Token τ) : Prop :=
  t'.tag = t.tag ∧ t'.text = Text.returned t.text

theorem Stretch.returned_tokensFrom {τ : Type} (stretches : List (Stretch τ))
    (offset offset' : Nat) :
    List.Forall₂ Token.Returned (tokensFrom offset stretches)
      (tokensFrom offset' (stretches.map crlf)) := by
  induction stretches generalizing offset offset' with
  | nil => exact .nil
  | cons s rest ih =>
    rw [List.map_cons, tokensFrom, tokensFrom]
    refine List.rel_append ?_ (ih _ _)
    cases s with
    | unclaimed text => simp [crlf, token?, Token.Returned, Text.returned]
    | claimed effect text => cases effect <;> simp [crlf, token?, Token.Returned, Text.returned]

namespace Table

variable {τ : Type} {rules : List (Rule τ)} {source : List Char} {p : Place} {table : Table τ}

def Steady (rules : List (Rule τ)) (source : List Char) : Prop :=
  ∀ rule ∈ rules, rule.pattern.Steady source

theorem bestOf_crlf
    (h : ∀ rule ∈ rules, rule.pattern.match? p.crlf = (rule.pattern.match? p).map Place.crlf) :
    bestOf p.crlf rules = (bestOf p rules).map Hit.crlf := by
  induction rules with
  | nil => rfl
  | cons rule rules ih =>
    rw [bestOf, bestOf, h rule List.mem_cons_self,
      ih fun rule' hrule' => h rule' (List.mem_cons_of_mem _ hrule')]
    cases hmatch : rule.pattern.match? p with
    | none => rfl
    | some stop =>
      cases hbest : bestOf p rules with
      | none => rfl
      | some later =>
        obtain ⟨rule', stop', rfl, hlater⟩ := wins_of_bestOf hbest
        obtain ⟨s, hs⟩ := Pattern.passes_of_match hmatch
        have hlonger : stop'.crlf.left < stop.crlf.left ↔ stop'.left < stop.left :=
          hlater.passes.left_crlf_lt_iff hs
        simp only [Option.map_some, Hit.crlf, hlonger]
        split <;> rfl

theorem seek_end {n : Nat} (h : p.after = []) : seek rules n p = bestOf p rules := by
  cases n with
  | zero => rfl
  | succ n =>
    rw [seek]
    cases bestOf p rules with
    | some hit => rfl
    | none =>
      rcases hnext : p.next? with - | ⟨c, q⟩
      · rfl
      · rw [(Place.Passes.next hnext).after] at h
        cases h

theorem seek_crlf (h : Steady rules source) (hp : p.In source) {n n' : Nat} (hn : p.left ≤ n)
    (hn' : p.crlf.left ≤ n') :
    seek rules n' p.crlf = (seek rules n p).map Hit.crlf := by
  have hend {p : Place} (hp : p.In source) (n n' : Nat) (hafter : p.after = []) :
      seek rules n' p.crlf = (seek rules n p).map Hit.crlf := by
    rw [seek_end hafter, seek_end (by rw [Place.crlf_eq_self hafter]; exact hafter),
      bestOf_crlf fun rule hrule => (h rule hrule).matched p hp]
  induction n generalizing p n' with
  | zero => exact hend hp _ _ (List.length_eq_zero_iff.mp (by rw [← p.left_eq]; omega))
  | succ n ih =>
    rcases p.end_or_next with hafter | ⟨c, q, hnext⟩
    · exact hend hp _ _ hafter
    have hpasses := Place.Passes.next hnext
    have hleft : p.left = 1 + q.left := hpasses.left_eq
    have hq := hp.trans hpasses
    obtain ⟨m', rfl⟩ : ∃ m', n' = m' + 1 := by
      have hlt := hpasses.crlf.left_lt_iff.mpr (by simp)
      exact ⟨n' - 1, by omega⟩
    rw [seek, seek, bestOf_crlf fun rule hrule => (h rule hrule).matched p hp]
    cases hbest : bestOf p rules with
    | some hit => rfl
    | none =>
      by_cases hc : c = '\n'
      · -- The search goes past the carriage return and finds nothing before the line feed.
        subst hc
        obtain ⟨hreturn, hfeed⟩ := Place.next?_crlf_feed hnext
        have hleft' : p.crlf.left = 2 + q.crlf.left := hpasses.crlf.left_eq
        obtain ⟨l', rfl⟩ : ∃ l', m' = l' + 1 := ⟨m' - 1, by omega⟩
        have hsilent : Silent rules (.beforeFeed q.after) := fun rule hrule =>
          (h rule hrule).between p q hp hnext (silent_of_bestOf hbest rule hrule)
        simp only [Option.map_none, hnext, hreturn]
        rw [seek, bestOf_of_silent hsilent]
        simp only [hfeed]
        exact ih hq (by omega) (by omega)
      · have hleft' := hpasses.crlf.left_lt_iff.mpr (by simp)
        simp only [Option.map_none, hnext, Place.next?_crlf hnext hc]
        exact ih hq (by omega) (by omega)

/-- A step finds the same stretches, carriage returns apart. -/
theorem step_crlf (h : Steady table.rules source) (hp : p.In source) :
    table.scanner.step p.crlf =
      ((table.scanner.step p).1.map Stretch.crlf, (table.scanner.step p).2.crlf) := by
  have hnext : table.scanner.next? p.crlf = (table.scanner.next? p).map Hit.crlf :=
    seek_crlf h hp (Nat.le_refl _) (Nat.le_refl _)
  cases hseek : table.scanner.next? p with
  | none =>
    rw [hseek] at hnext
    rw [Scanner.step_of_none hseek, Scanner.step_of_none hnext,
      (Place.Passes.last p.crlf).unique (Place.Passes.last p).crlf]
    rfl
  | some hit =>
    rw [hseek] at hnext
    obtain ⟨gap, q, rule, stop, rfl, hskips, hwins⟩ := wins_of_seek hseek
    by_cases hne : gap = []
    · subst hne
      cases hskips.passes.unique (.refl p)
      rw [Scanner.step_of_here hseek rfl, Scanner.step_of_here hnext rfl]
      simp only [Hit.crlf, hwins.passes.crlf.upTo_eq]
      rfl
    · have hne' : Text.crlf gap ≠ [] := fun hnil => hne (Text.crlf_eq_nil.mp hnil)
      rw [Scanner.step_of_later hseek hskips.passes hne,
        Scanner.step_of_later hnext hskips.passes.crlf hne']
      simp only [Hit.crlf, hwins.passes.crlf.upTo_eq]
      rfl

variable {offset offset' : Nat} {out out' : Array (Token τ)}

theorem scanFrom_crlf (h : Steady table.rules source) (hp : p.In source) (budget : Nat)
    (hout : List.Forall₂ Token.Returned out.toList out'.toList) :
    Parallel (fun out out' => List.Forall₂ Token.Returned out.toList out'.toList)
      (table.scanner.scanFrom true budget offset p out)
        (table.scanner.scanFrom true budget offset' p.crlf out') := by
  induction budget generalizing offset offset' p out out' with
  | zero =>
    simp only [Scanner.scanFrom, Place.left_crlf_eq_zero]
    split
    · exact .ok hout
    · exact .error _ _
  | succ budget ih =>
    simp only [Scanner.scanFrom, Place.left_crlf_eq_zero, step_crlf h hp,
      Scanner.emitAll_lenient]
    split
    · exact .ok hout
    · obtain ⟨s, hs⟩ := passes_step table p
      apply ih (hp.trans hs)
      simpa using List.rel_append hout (Stretch.returned_tokensFrom _ _ _)

/-- A lenient scan gives the same tokens of both texts, carriage returns apart, or stops at its
cap. -/
theorem scan_crlf {source source' : String} (h : Steady table.rules source.toList)
    (hs : source'.toList = Text.crlf source.toList) :
    Parallel (List.Forall₂ Token.Returned) (table.scan true source)
      (table.scan true source') := by
  have hstart : Place.start source'.toList = (Place.start source.toList).crlf :=
    Place.eq_of_sides rfl hs
  rw [scan, scan, Scanner.scan, Scanner.scan, hstart]
  exact (scanFrom_crlf h ⟨[], .refl _⟩ _ .nil).map fun _ _ hout => hout

end Table

end Fabula
