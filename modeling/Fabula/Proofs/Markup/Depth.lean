import Fabula.Proofs.Markup.Building

namespace Fabula

/-- A node of a tree: how many levels below the document it stands, and its kind. -/
structure Site where
  depth : Nat
  kind : SpanKind
  deriving DecidableEq

/-- A node that an event adds to a tree: a span that is opened, perhaps again, or a single
leaf. -/
inductive Growth where
  | span (site : Site)
  | leaf (site : Site)
  deriving DecidableEq

namespace Growth

def site : Growth → Site
  | span site => site
  | leaf site => site

/-- Spans stand within the limit, and leaves in them. -/
def Within (maxDepth : Nat) : Growth → Prop
  | span site => site.depth ≤ maxDepth
  | leaf site => site.depth ≤ maxDepth + 1

end Growth

namespace Range

mutual

def sites (depth : Nat) : Range → List Site
  | text _ => []
  | node kind children => ⟨depth, kind⟩ :: sitesOf (depth + 1) children

def sitesOf (depth : Nat) : List Range → List Site
  | [] => []
  | r :: rest => r.sites depth ++ sitesOf depth rest

end

@[simp]
theorem sitesOf_nil (depth : Nat) : sitesOf depth [] = [] := by
  rw [sitesOf]

@[simp]
theorem sitesOf_text (depth : Nat) (s : String) (rest : List Range) :
    sitesOf depth (text s :: rest) = sitesOf depth rest := by
  rw [sitesOf, sites, List.nil_append]

@[simp]
theorem sitesOf_node (depth : Nat) (kind : SpanKind) (children rest : List Range) :
    sitesOf depth (node kind children :: rest) =
      ⟨depth, kind⟩ :: (sitesOf (depth + 1) children ++ sitesOf depth rest) := by
  rw [sitesOf, sites, List.cons_append]

@[simp]
theorem sitesOf_append (depth : Nat) (front rest : List Range) :
    sitesOf depth (front ++ rest) = sitesOf depth front ++ sitesOf depth rest := by
  induction front with
  | nil => simp
  | cons r front ih => rw [List.cons_append, sitesOf, sitesOf, ih, List.append_assoc]

theorem sitesOf_addText (depth : Nat) (s : String) (parts : List Range) :
    sitesOf depth (addText s parts).reverse = sitesOf depth parts.reverse := by
  cases parts with
  | nil => simp [addText]
  | cons r rest => cases r <;> simp [addText]

end Range

namespace SpanKind

variable {kind : SpanKind} {kinds : List SpanKind} {site : Site}

/-- Where the spans inside the innermost one of a kind stand when they are opened again after
its end, the outermost first. -/
def reopened (kind : SpanKind) : List SpanKind → List Site
  | [] => []
  | k :: ks => if k = kind then [] else reopened kind ks ++ [⟨(ks.erase kind).length + 1, k⟩]

theorem depth_le_of_mem_reopened (h : site ∈ reopened kind kinds) :
    site.depth ≤ kinds.length := by
  induction kinds with
  | nil => cases h
  | cons k ks ih =>
    rw [reopened] at h
    split at h
    · cases h
    · rw [List.length_cons]
      rcases List.mem_append.mp h with h | h
      · exact Nat.le_succ_of_le (ih h)
      · have hlength : (ks.erase kind).length ≤ ks.length := List.length_erase_le
        rw [List.mem_singleton.mp h]
        exact Nat.succ_le_succ hlength

theorem kind_mem_of_mem_reopened (h : site ∈ reopened kind kinds) : site.kind ∈ kinds := by
  induction kinds with
  | nil => cases h
  | cons k ks ih =>
    rw [reopened] at h
    split at h
    · cases h
    · rcases List.mem_append.mp h with h | h
      · exact List.mem_cons_of_mem _ (ih h)
      · rw [List.mem_singleton.mp h]
        exact List.mem_cons_self

end SpanKind

def Move.grows (kinds : List SpanKind) : Move → List Growth
  | write _ => []
  | leaf kind => [.leaf ⟨kinds.length + 1, kind⟩]
  | enter kind => [.span ⟨kinds.length + 1, kind⟩]
  | leave => []

/-- What moves add one after the other. -/
def Move.grown (kinds : List SpanKind) : List Move → List Growth
  | [] => []
  | m :: moves => m.grows kinds ++ grown (m.after kinds) moves

theorem Move.grown_append (kinds : List SpanKind) (front back : List Move) :
    grown kinds (front ++ back) =
      grown kinds front ++ grown (front.foldl after kinds) back := by
  induction front generalizing kinds with
  | nil => rfl
  | cons m front ih =>
    rw [List.cons_append, grown, grown, ih, List.append_assoc, List.foldl_cons]

namespace Event

def grows (kinds : List SpanKind) : Event → List Growth
  | text _ => []
  | start kind => [.span ⟨kinds.length + 1, kind⟩]
  | stop kind => if kind ∈ kinds then (SpanKind.reopened kind kinds).map .span else []
  | single kind => [.leaf ⟨kinds.length + 1, kind⟩]

/-- What events add one after the other. -/
def grown (kinds : List SpanKind) : List Event → List Growth
  | [] => []
  | e :: rest => e.grows kinds ++ grown (e.after kinds) rest

theorem grown_leaving (kind : SpanKind) (kinds : List SpanKind) :
    Move.grown kinds (leaving kind kinds) = (SpanKind.reopened kind kinds).map .span := by
  induction kinds with
  | nil => rfl
  | cons k ks ih =>
    rw [leaving, Move.grown, Move.grows, Move.after, List.tail_cons, List.nil_append,
      SpanKind.reopened]
    by_cases hk : k = kind
    · rw [if_pos hk, if_pos hk]
      rfl
    · rw [if_neg hk, if_neg hk, Move.grown_append, ih, foldl_leaving, List.map_append]
      rfl

theorem grown_moves (e : Event) (kinds : List SpanKind) :
    Move.grown kinds (e.moves kinds) = e.grows kinds := by
  cases e with
  | text s => rfl
  | start kind => rfl
  | stop kind =>
    rw [moves, grows]
    split
    · exact grown_leaving kind kinds
    · rfl
  | single kind => rfl

theorem kind_of_mem_grown {kinds : List SpanKind} {events : List Event} {growth : Growth}
    (h : growth ∈ grown kinds events) :
    growth.site.kind ∈ kinds ∨ .start growth.site.kind ∈ events ∨
      .single growth.site.kind ∈ events := by
  induction events generalizing kinds with
  | nil => cases h
  | cons e events ih =>
    rw [grown] at h
    rcases List.mem_append.mp h with h | h
    · cases e with
      | text s => cases h
      | start kind =>
        rw [List.mem_singleton.mp h]
        exact .inr (.inl List.mem_cons_self)
      | stop kind =>
        rw [grows] at h
        split at h
        · obtain ⟨site, hsite, rfl⟩ := List.mem_map.mp h
          exact .inl (SpanKind.kind_mem_of_mem_reopened hsite)
        · cases h
      | single kind =>
        rw [List.mem_singleton.mp h]
        exact .inr (.inr List.mem_cons_self)
    · rcases ih h with hk | hk | hk
      · cases e with
        | text s => exact .inl hk
        | start kind =>
          rcases List.mem_cons.mp hk with hk | hk
          · rw [hk]
            exact .inr (.inl List.mem_cons_self)
          · exact .inl hk
        | stop kind => exact .inl (List.mem_of_mem_erase hk)
        | single kind => exact .inl hk
      · exact .inr (.inl (List.mem_cons_of_mem _ hk))
      · exact .inr (.inr (List.mem_cons_of_mem _ hk))

end Event

namespace Builder

open Range

variable {b b' : Builder} {maxDepth : Nat} {e : Event} {events : List Event}

def sitesIn : List Frame → List Site
  | [] => []
  | f :: fs => sitesIn fs ++ ⟨fs.length + 1, f.kind⟩ :: sitesOf (fs.length + 2) f.parts.reverse

def sites (b : Builder) : List Site := sitesOf 1 b.parts.reverse ++ sitesIn b.frames

theorem sites_onParts {g : List Range → List Range} {added : List Site}
    (hg : ∀ parts, sitesOf (b.frames.length + 1) (g parts).reverse =
      sitesOf (b.frames.length + 1) parts.reverse ++ added) :
    (b.onParts g).sites = b.sites ++ added := by
  obtain ⟨frames, parts⟩ := b
  cases frames with
  | nil => simpa [onParts, sites, sitesIn] using hg parts
  | cons top rest => simpa [onParts, sites, sitesIn] using hg top.parts

theorem sites_add (r : Range) (b : Builder) :
    (b.add r).sites = b.sites ++ sitesOf (b.frames.length + 1) [r] := by
  apply sites_onParts
  intro parts
  rw [List.reverse_cons, sitesOf_append]

theorem sites_move (b : Builder) (m : Move) :
    (b.move m).sites = b.sites ++ (m.grows b.kinds).map Growth.site := by
  cases m with
  | write s =>
    apply sites_onParts
    intro parts
    rw [sitesOf_addText]
    exact (List.append_nil _).symm
  | leaf kind =>
    rw [move, sites_add, ← length_kinds]
    simp [Move.grows, Growth.site]
  | enter kind =>
    rw [Move.grows, length_kinds]
    simp [move, sites, sitesIn, Frame.fresh, Growth.site]
  | leave =>
    obtain ⟨frames, parts⟩ := b
    cases frames with
    | nil => exact (List.append_nil _).symm
    | cons f fs =>
      rw [move, close, sites_add]
      simp [sites, sitesIn, Frame.close, Move.grows]

theorem sites_moves (b : Builder) (moves : List Move) :
    (moves.foldl move b).sites = b.sites ++ (Move.grown b.kinds moves).map Growth.site := by
  induction moves generalizing b with
  | nil => exact (List.append_nil _).symm
  | cons m moves ih =>
    rw [List.foldl_cons, ih, sites_move, kinds_move, Move.grown, List.map_append,
      List.append_assoc]

theorem sites_step (h : step maxDepth b e = .ok b') :
    b'.sites = b.sites ++ (e.grows b.kinds).map Growth.site := by
  rw [eq_of_step h, sites_moves, Event.grown_moves]

theorem sites_run (h : events.foldlM (step maxDepth) b = .ok b') :
    b'.sites = b.sites ++ (Event.grown b.kinds events).map Growth.site := by
  induction events generalizing b with
  | nil =>
    cases h
    exact (List.append_nil _).symm
  | cons e events ih =>
    rw [List.foldlM_cons] at h
    obtain ⟨next, hnext, h⟩ := bind_eq_ok_iff.mp h
    rw [ih h, sites_step hnext, kinds_step hnext, Event.grown, List.map_append,
      List.append_assoc]

theorem grown_leaves (kinds : List SpanKind) (frames : List Frame) :
    Move.grown kinds (frames.map fun _ => .leave) = [] := by
  induction frames generalizing kinds with
  | nil => rfl
  | cons f fs ih => exact ih kinds.tail

theorem sitesOf_finish (b : Builder) : sitesOf 1 (finish none b.parts b.frames) = b.sites := by
  have hsites := sites_moves b (b.frames.map fun _ => .leave)
  rw [grown_leaves, List.map_nil, List.append_nil] at hsites
  rw [finish_none, ← hsites, sites, frames_leaves]
  exact (List.append_nil _).symm

/-- With no more spans open than the limit, an event adds nothing beyond it and leaves no more
open. -/
theorem within_step (hb : b.kinds.length ≤ maxDepth) (h : step maxDepth b e = .ok b') :
    b'.kinds.length ≤ maxDepth ∧ ∀ growth ∈ e.grows b.kinds, growth.Within maxDepth := by
  rw [kinds_step h]
  cases e with
  | text s => exact ⟨hb, by simp [Event.grows]⟩
  | start kind =>
    have hroom : b.kinds.length < maxDepth := (step_eq_ok_iff.mp h).1 kind rfl
    exact ⟨hroom, List.forall_mem_singleton.mpr hroom⟩
  | stop kind =>
    refine ⟨Nat.le_trans List.length_erase_le hb, ?_⟩
    intro growth hgrowth
    rw [Event.grows] at hgrowth
    split at hgrowth
    · obtain ⟨site, hsite, rfl⟩ := List.mem_map.mp hgrowth
      exact Nat.le_trans (SpanKind.depth_le_of_mem_reopened hsite) hb
    · cases hgrowth
  | single kind => exact ⟨hb, List.forall_mem_singleton.mpr (Nat.succ_le_succ hb)⟩

theorem within_run (hb : b.kinds.length ≤ maxDepth)
    (h : events.foldlM (step maxDepth) b = .ok b') :
    ∀ growth ∈ Event.grown b.kinds events, growth.Within maxDepth := by
  induction events generalizing b with
  | nil => simp [Event.grown]
  | cons e events ih =>
    rw [List.foldlM_cons] at h
    obtain ⟨next, hnext, h⟩ := bind_eq_ok_iff.mp h
    obtain ⟨hroom, hgrows⟩ := within_step hb hnext
    intro growth hgrowth
    rw [Event.grown, ← kinds_step hnext] at hgrowth
    rcases List.mem_append.mp hgrowth with hgrowth | hgrowth
    · exact hgrows growth hgrowth
    · exact ih hroom h growth hgrowth

theorem run_eq_error_iff {err : MarkupError} :
    events.foldlM (step maxDepth) b = .error err ↔
      err = .tooDeep maxDepth ∧ ∃ front kind back, events = front ++ .start kind :: back ∧
        maxDepth ≤ (front.foldl Event.after b.kinds).length := by
  induction events generalizing b with
  | nil => simp [pure, Except.pure]
  | cons e events ih =>
    rw [List.foldlM_cons]
    cases hstep : step maxDepth b e with
    | error err' =>
      obtain ⟨rfl, ⟨kind, rfl⟩, hlimit⟩ := step_eq_error_iff.mp hstep
      constructor
      · rintro ⟨⟩
        exact ⟨rfl, [], kind, events, rfl, hlimit⟩
      · rintro ⟨rfl, -⟩
        rfl
    | ok next =>
      refine ih.trans (and_congr_right fun _ => ?_)
      rw [kinds_step hstep]
      constructor
      · rintro ⟨front, kind, back, rfl, hlimit⟩
        exact ⟨e :: front, kind, back, rfl, hlimit⟩
      · rintro ⟨front, kind, back, hevents, hlimit⟩
        cases front with
        | nil =>
          -- Here the first start would have been refused.
          obtain ⟨rfl, -⟩ := List.cons.inj hevents
          cases hstep.symm.trans (step_eq_error_iff.mpr ⟨rfl, ⟨kind, rfl⟩, hlimit⟩)
        | cons e' front =>
          obtain ⟨rfl, rfl⟩ := List.cons.inj hevents
          exact ⟨front, kind, back, rfl, hlimit⟩

end Builder

namespace Range

theorem sites_ofEvents {maxDepth : Nat} {events : List Event} {tree : Range}
    (h : ofEvents maxDepth events = .ok tree) :
    ∃ children, tree = .node .document children ∧
      sitesOf 1 children = (Event.grown [] events).map Growth.site := by
  obtain ⟨b, hb, h⟩ := bind_eq_ok_iff.mp h
  cases h
  refine ⟨_, rfl, ?_⟩
  rw [Builder.sitesOf_finish, Builder.sites_run hb]
  simp [Builder.sites, Builder.sitesIn, Builder.empty, Builder.kinds]

/-- The limit bounds the tree. Building fails just when a span is to open while as many are open
as the limit allows. Otherwise the nodes of the tree are, in order, those that the events add,
spans that are opened again included; spans stand within the limit and single leaves at most one
level below it. -/
theorem depth_bounded (maxDepth : Nat) (events : List Event) :
    (∀ err, ofEvents maxDepth events = .error err ↔
        err = .tooDeep maxDepth ∧ ∃ front kind back, events = front ++ .start kind :: back ∧
          maxDepth ≤ (front.foldl Event.after []).length) ∧
      ∀ tree, ofEvents maxDepth events = .ok tree →
        ∃ children, tree = .node .document children ∧
          sitesOf 1 children = (Event.grown [] events).map Growth.site ∧
          ∀ growth ∈ Event.grown [] events, growth.Within maxDepth := by
  constructor
  · intro err
    have hrun : events.foldlM (Builder.step maxDepth) Builder.empty = .error err ↔ _ :=
      Builder.run_eq_error_iff
    rw [ofEvents, ← show Builder.empty.kinds = [] from rfl, ← hrun]
    cases events.foldlM (Builder.step maxDepth) Builder.empty with
    | error err' => simp [bind, Except.bind]
    | ok b => simp [bind, Except.bind, pure, Except.pure]
  · intro tree h
    obtain ⟨children, htree, hsites⟩ := sites_ofEvents h
    obtain ⟨b, hb, -⟩ := bind_eq_ok_iff.mp h
    exact ⟨children, htree, hsites, Builder.within_run (Nat.zero_le _) hb⟩

/-- Emphasis that ends around a hidden span, an insert in what is opened again of it, and line
breaks. -/
def cutAtLimit : List Event :=
  [.start .emphasis, .start .hidden, .single .lineBreak, .stop .emphasis, .start .insert,
    .single .lineBreak, .stop .quotation]

/-- One level does not hold the hidden span. Two hold all spans, and the breaks stand one level
below. -/
theorem cutAtLimit_bounded :
    ofEvents 1 cutAtLimit = .error (.tooDeep 1) ∧
      ∃ children, ofEvents 2 cutAtLimit = .ok (.node .document children) ∧
        sitesOf 1 children =
          [⟨1, .emphasis⟩, ⟨2, .hidden⟩, ⟨3, .lineBreak⟩, ⟨1, .hidden⟩, ⟨2, .insert⟩,
            ⟨3, .lineBreak⟩] ∧
        (Growth.span ⟨2, .insert⟩).Within 2 ∧ (Growth.leaf ⟨3, .lineBreak⟩).Within 2 := by
  obtain ⟨hfails, -⟩ := depth_bounded 1 cutAtLimit
  obtain ⟨-, hbuilds⟩ := depth_bounded 2 cutAtLimit
  refine ⟨(hfails _).mpr ⟨rfl, [.start .emphasis], .hidden, _, rfl, by decide⟩, ?_⟩
  obtain ⟨children, htree, hsites, hwithin⟩ := hbuilds _ rfl
  exact ⟨children, by rw [← htree]; rfl, hsites.trans (by decide), hwithin _ (by decide),
    hwithin _ (by decide)⟩

end Range

end Fabula
