import FactoryMethods.Proofs.Markup.Move

/-! Elements and their events. A document without faults whose elements are all closed has the
events of a forest: the lexer takes no end tag but that of the innermost open element. -/
namespace FactoryMethods
namespace Markup

/-- Elements side by side. -/
inductive Forest
  | nil
  /-- A self-closing tag, and what follows it. -/
  | leaf (tag : Tag) (next : Forest)
  /-- A start tag, what stands between it and its end tag, and what follows that. -/
  | element (tag : Tag) (content next : Forest)
  deriving DecidableEq, Repr

namespace Forest

def events : Forest → List Event
  | nil => []
  | leaf tag next => .selfClosing tag :: next.events
  | element tag content next =>
    .opening tag :: (content.events ++ .closing tag.name :: next.events)

def append : Forest → Forest → Forest
  | nil, g => g
  | leaf tag next, g => leaf tag (next.append g)
  | element tag content next, g => element tag content (next.append g)

@[simp] theorem events_append (f g : Forest) : (f.append g).events = f.events ++ g.events := by
  induction f with
  | nil => rfl
  | leaf tag next ih => simp [append, events, ih]
  | element tag content next _ ih => simp [append, events, ih]

end Forest

namespace Event

def significant (es : List Event) : List Event := es.filter (· ≠ .ignorable)

@[simp] theorem significant_nil : significant [] = [] := rfl

@[simp] theorem significant_opening (tag : Tag) (es : List Event) :
    significant (.opening tag :: es) = .opening tag :: significant es := rfl

@[simp] theorem significant_selfClosing (tag : Tag) (es : List Event) :
    significant (.selfClosing tag :: es) = .selfClosing tag :: significant es := rfl

@[simp] theorem significant_closing (name : Bytes) (es : List Event) :
    significant (.closing name :: es) = .closing name :: significant es := rfl

@[simp] theorem significant_ignorable (es : List Event) :
    significant (.ignorable :: es) = significant es := rfl

@[simp] theorem significant_append (es fs : List Event) :
    significant (es ++ fs) = significant es ++ significant fs := List.filter_append es fs

/-- The names of the open elements after an event, innermost first; none where the event is an end
that closes anything else than the innermost one. -/
def path? (path : List Bytes) : Event → Option (List Bytes)
  | .opening tag => some (tag.name :: path)
  | .closing name => if path.head? = some name then some path.tail else none
  | .selfClosing _ | .ignorable => some path

/-- What is left to read when `path` is open: the rest of the content and the end of
each element. -/
def Closes : List Bytes → List Event → Prop
  | [], es => ∃ f : Forest, es = f.events
  | name :: outer, es => ∃ (f : Forest) (rest : List Event),
    es = f.events ++ .closing name :: rest ∧ Closes outer rest

theorem Closes.append_left {path : List Bytes} {es : List Event} (h : Closes path es) (f : Forest) :
    Closes path (f.events ++ es) := by
  cases path with
  | nil =>
    obtain ⟨g, rfl⟩ := h
    exact ⟨f.append g, (f.events_append g).symm⟩
  | cons name outer =>
    obtain ⟨g, rest, rfl, hrest⟩ := h
    exact ⟨f.append g, rest, by simp, hrest⟩

/-- Induction on the events; the open elements are the invariant. -/
theorem closes_of_path (path : List Bytes) {es : List Event} (h : es.foldlM path? path = some []) :
    Closes path (significant es) := by
  induction es generalizing path with
  | nil =>
    cases h
    exact ⟨.nil, rfl⟩
  | cons e es ih =>
    rw [List.foldlM_cons] at h
    cases e with
    | opening tag =>
      obtain ⟨f, rest, hes, hrest⟩ := ih (tag.name :: path) h
      have hstep := hrest.append_left (.element tag f .nil)
      rw [significant_opening, hes]
      simpa [Forest.events] using hstep
    | selfClosing tag => exact (ih path h).append_left (.leaf tag .nil)
    | closing name =>
      cases path with
      | nil => simp [path?] at h
      | cons top outer =>
        by_cases hname : top = name
        · subst hname
          exact ⟨.nil, significant es, rfl, ih outer (by simpa [path?] using h)⟩
        · simp [path?, hname] at h
    | ignorable => exact ih path h

end Event

namespace Lexer

/-- What a result makes of the open elements agrees with the event it brings. -/
def Follows (path : List Bytes) (r : Result) : Prop :=
  ∀ e? l, r = .ok (e?, l) → e?.elim (some path) (Event.path? path) = some l.path

theorem follows_turn (l : Lexer) (mode : Mode) : Follows l.path (l.turn mode) := by
  rintro _ _ ⟨⟩
  rfl

theorem follows_error (path : List Bytes) (f : Fault) : Follows path (.error f) := by
  rintro _ _ ⟨⟩

theorem follows_ignorable (l : Lexer) : Follows l.path (l.emit .ignorable) := by
  rintro _ _ ⟨⟩
  rfl

theorem follows_closeElement (l : Lexer) (name : Bytes) : Follows l.path (l.closeElement name) := by
  obtain ⟨mode, path⟩ := l
  cases path with
  | nil => exact follows_error _ _
  | cons top outer =>
    simp only [closeElement]
    split
    · rename_i h
      subst h
      rintro _ _ ⟨⟩
      simp [Event.path?]
    · exact follows_error _ _

theorem follows_finishTag (l : Lexer) (read : Bytes) : Follows l.path (l.finishTag read) := by
  unfold finishTag
  split
  · exact follows_closeElement _ _
  · split
    · rintro _ _ ⟨⟩
      rfl
    · rintro _ _ ⟨⟩
      rfl

theorem follows_feed (l : Lexer) (b : UInt8) : Follows l.path (l.feed b) := by
  have hmove := feed_move l b
  generalize l.feed b = r at hmove ⊢
  cases hmove with
  | @tag quote read _ =>
    unfold feedTag
    split
    · exact follows_finishTag l read
    · exact follows_turn l _
  | turn _ => exact follows_turn l _
  | ignorable => exact follows_ignorable l
  | fault _ => exact follows_error _ _

theorem path_feedAll {l l' : Lexer} {bytes : Bytes} {es : List Event}
    (h : l.feedAll bytes = (es, .ok l')) : es.foldlM Event.path? l.path = some l'.path := by
  induction bytes generalizing l es with
  | nil =>
    cases h
    rfl
  | cons b rest ih =>
    have hfollows := follows_feed l b
    rw [feedAll] at h
    split at h
    · cases h
    · rename_i m hfeed
      have hpath := hfollows _ _ hfeed
      simp only [Option.elim_none, Option.some.injEq] at hpath
      rw [hpath]
      exact ih h
    · rename_i e m hfeed
      have hpath := hfollows _ _ hfeed
      obtain ⟨rfl, hrest⟩ := Prod.mk.inj h
      rw [List.foldlM_cons]
      simp only [Option.elim_some] at hpath
      rw [hpath]
      exact ih (Prod.ext rfl hrest)

end Lexer
end Markup
end FactoryMethods
