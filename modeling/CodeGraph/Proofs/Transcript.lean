import CodeGraph.LanguageServer.Session
import Mathlib.Data.List.Basic
import Mathlib.Tactic.SplitIfs

/-!
# What passes in a session

A session is asked for declarations and told notices, in any order, and any of its messages may come
to nothing. `Course` lists what a single question can do: it sends nothing if the connection is
gone, asks for the symbols of a document that is open, and otherwise tries to open it first. From
there an induction on what happens gives what passes in a whole session (`conduct_in_order`): each
document is opened at most once and before its symbols are asked for, the latest complaints count,
and the end of indexing is told once.
-/

namespace CodeGraph.LanguageServer

open Json (Value)

variable {ω : Type}

/-- What passes between client and server. -/
inductive Passage where
  /-- A message, with the reply to it and the notices in front of the reply. -/
  | sent (m : ClientMessage) (reply : Except ServerError Value) (notices : List (Option Notice))
  /-- A notice between two messages. -/
  | said (notice : Option Notice)

namespace Passage

def notices : Passage → List (Option Notice)
  | sent _ _ notices => notices
  | said notice => [notice]

/-- The text with which the document is to be opened, and whether the message gets through. -/
def attempt? (uri : String) : Passage → Option (String × Bool)
  | sent (.didOpen u _ text) reply _ => if u = uri then some (text, reply.isOk) else none
  | _ => none

end Passage

/-- The server that keeps what passes, in its order. -/
def Server.recorded (server : Server ω) : Server (ω × List Passage) where
  send m := fun (w, log) =>
    let (reply, notices, w) := server.send m w
    (reply, notices, w, log ++ [.sent m reply notices])

/-- What happens to a session. -/
inductive Happening where
  /-- The declarations in a file are asked for. -/
  | asked (path content : String)
  | said (notice : Option Notice)

/-- The contents with which the declarations in a document are asked for. -/
def contents (uri : String) (hs : List Happening) : List String :=
  hs.filterMap fun
    | .asked path content => if DocumentUri.ofPath? path = some uri then some content else none
    | .said _ => none

/-- The attempts to open the document. -/
def tries (uri : String) (log : List Passage) : List (String × Bool) :=
  log.filterMap (·.attempt? uri)

/-- The notices that are taken. The connection is gone with the first that cannot be read. -/
def heard : List (Option Notice) → List Notice
  | some n :: ns => n :: heard ns
  | _ => []

/-- The complaints of a notice about the document. -/
def Notice.complaints? (uri : String) : Notice → Option (List String)
  | published u complaints => if u = uri then some complaints else none
  | _ => none

/-- Whether the notice tells the end of work that is waited for. -/
def Settings.accepts (settings : Settings) : Notice → Bool
  | .workEnded token => ({ settings } : Session).awaits token
  | _ => false

namespace Session

/-- The places in a list of notices at which the end of indexing is told. -/
def firings (s : Session) : List (Option Notice) → List Nat
  | [] => []
  | n :: ns =>
    let later := (firings (s.receive n) ns).map (· + 1)
    if !s.isIndexed && (s.receive n).isIndexed then 0 :: later else later

variable (server : Server ω)

def happen : Happening → Session × ω → Session × ω
  | .asked path content, sw => (declarations server path content sw).2
  | .said n, (s, w) => (s.receive n, w)

/-- What is left when all this has happened in turn. -/
def conduct (hs : List Happening) (sw : Session × ω) : Session × ω :=
  hs.foldl (fun sw h => happen server h sw) sw

def passages : Happening → Session × ω → List Passage
  | .asked path content, (s, w) => (declarations server.recorded path content (s, w, [])).2.2.2
  | .said n, _ => [.said n]

/-- What passes while all this happens in turn. -/
def transcript : List Happening → Session × ω → List Passage
  | [], _ => []
  | h :: hs, sw => passages server h sw ++ transcript hs (happen server h sw)

/-! ## Notices -/

/-- The complaints that are kept after a notice. -/
def keeping (published : List (String × List String)) : Notice → List (String × List String)
  | .published uri complaints => (uri, complaints) :: published.filter (·.1 != uri)
  | _ => published

/-- The session after a notice that it takes. -/
def took (s : Session) (n : Notice) : Session :=
  { s with
    published := keeping s.published n
    isIndexed := s.isIndexed || s.settings.accepts n }

variable {s : Session} {n : Option Notice} {ns : List (Option Notice)}

theorem receive_of_isBroken (h : s.isBroken = true) (n : Option Notice) : s.receive n = s := by
  unfold receive
  rw [if_pos h]

theorem receive_none (h : s.isBroken = false) : s.receive none = { s with isBroken := true } := by
  simp [receive, h]

theorem receive_some (h : s.isBroken = false) (n : Notice) : s.receive (some n) = s.took n := by
  rcases n with token | ⟨uri, complaints⟩ | _
  · simp [receive, h, took, keeping, Settings.accepts, awaits]
  · simp [receive, h, took, keeping, Settings.accepts]
  · obtain ⟨_, _, _, _, _⟩ := s
    simp [receive, took, keeping, Settings.accepts]

/-- What holds of the session after a notice, from the three cases of it. -/
theorem receive_induction {P : Session → Prop} (s : Session) (n : Option Notice) (hbroken : P s)
    (hnone : P { s with isBroken := true }) (hsome : ∀ n, P (s.took n)) : P (s.receive n) := by
  rcases h : s.isBroken with _ | _
  · rcases n with _ | n
    · rw [receive_none h]
      exact hnone
    · rw [receive_some h]
      exact hsome n
  · rwa [receive_of_isBroken h]

@[simp] theorem opened_receive (s : Session) (n : Option Notice) :
    (s.receive n).opened = s.opened :=
  receive_induction (P := fun t => t.opened = s.opened) s n rfl rfl fun _ => rfl

@[simp] theorem settings_receive (s : Session) (n : Option Notice) :
    (s.receive n).settings = s.settings :=
  receive_induction (P := fun t => t.settings = s.settings) s n rfl rfl fun _ => rfl

/-- The session with these documents open. -/
def withOpened (s : Session) (o : List String) : Session := { s with opened := o }

/-- Notices have nothing to do with what is open. -/
theorem receive_withOpened (s : Session) (o : List String) (n : Option Notice) :
    (s.withOpened o).receive n = (s.receive n).withOpened o := by
  rcases h : s.isBroken with _ | _
  · have ho : (s.withOpened o).isBroken = false := h
    rcases n with _ | n
    · rw [receive_none h, receive_none ho]
      rfl
    · rw [receive_some h, receive_some ho]
      rfl
  · have ho : (s.withOpened o).isBroken = true := h
    rw [receive_of_isBroken h, receive_of_isBroken ho]

@[simp] theorem opened_foldl_receive (s : Session) (ns : List (Option Notice)) :
    (ns.foldl receive s).opened = s.opened := by
  induction ns generalizing s with
  | nil => rfl
  | cons n ns ih => rw [List.foldl_cons, ih, opened_receive]

theorem foldl_receive_withOpened (s : Session) (o : List String) (ns : List (Option Notice)) :
    ns.foldl receive (s.withOpened o) = (ns.foldl receive s).withOpened o := by
  induction ns generalizing s with
  | nil => rfl
  | cons n ns ih => rw [List.foldl_cons, receive_withOpened, ih, List.foldl_cons]

theorem foldl_receive_of_isBroken (h : s.isBroken = true) (ns : List (Option Notice)) :
    ns.foldl receive s = s := by
  induction ns with
  | nil => rfl
  | cons n ns ih => rw [List.foldl_cons, receive_of_isBroken h, ih]

theorem foldl_receive_none (h : s.isBroken = false) (ns : List (Option Notice)) :
    (none :: ns).foldl receive s = { s with isBroken := true } := by
  rw [List.foldl_cons, receive_none h, foldl_receive_of_isBroken rfl]

theorem isBroken_foldl_receive (h : s.isBroken = false) (ns : List (Option Notice)) :
    (ns.foldl receive s).isBroken = true ↔ none ∈ ns := by
  induction ns generalizing s with
  | nil => simp [h]
  | cons n ns ih =>
    rcases n with _ | n
    · rw [foldl_receive_none h]
      simp
    · rw [List.foldl_cons, receive_some h, ih (s := s.took n) h]
      simp

theorem lookup_filter_ne {α : Type} {u uri : String} (h : u ≠ uri) (l : List (String × α)) :
    (l.filter (·.1 != uri)).lookup u = l.lookup u := by
  induction l with
  | nil => rfl
  | cons x l ih =>
    obtain ⟨v, a⟩ := x
    by_cases hv : v = uri
    · subst hv
      have hne : (u == v) = false := beq_eq_false_iff_ne.2 h
      simp [List.lookup_cons, ih, hne]
    · simp [List.lookup_cons, ih, hv]

theorem lookup_keeping (uri : String) (published : List (String × List String)) (n : Notice) :
    (keeping published n).lookup uri = (n.complaints? uri).or (published.lookup uri) := by
  rcases n with token | ⟨u, complaints⟩ | _
  · rfl
  · by_cases h : u = uri
    · subst h
      simp [keeping, Notice.complaints?]
    · have hne : (uri == u) = false := beq_eq_false_iff_ne.2 fun heq => h heq.symm
      simp [keeping, Notice.complaints?, h, List.lookup_cons, hne,
        lookup_filter_ne fun heq => h heq.symm]
  · rfl

/-- Of the complaints about a document the latest are kept. -/
theorem lookup_foldl_receive (h : s.isBroken = false) (uri : String) (ns : List (Option Notice)) :
    (ns.foldl receive s).published.lookup uri =
      ((heard ns).reverse.findSome? (·.complaints? uri)).or (s.published.lookup uri) := by
  induction ns generalizing s with
  | nil => rfl
  | cons n ns ih =>
    rcases n with _ | n
    · rw [foldl_receive_none h]
      rfl
    · rw [List.foldl_cons, receive_some h, ih (s := s.took n) h, heard, List.reverse_cons,
        List.findSome?_append, Option.or_assoc]
      simp [took, lookup_keeping]

theorem firings_of_isBroken (h : s.isBroken = true) (ns : List (Option Notice)) :
    firings s ns = [] := by
  induction ns with
  | nil => rfl
  | cons n ns ih => simp [firings, receive_of_isBroken h, ih]

theorem isIndexed_receive (h : s.isIndexed = true) (n : Option Notice) :
    (s.receive n).isIndexed = true :=
  receive_induction (P := fun t => t.isIndexed = true) s n h h fun _ => by simp [took, h]

theorem firings_of_isIndexed (h : s.isIndexed = true) (ns : List (Option Notice)) :
    firings s ns = [] ∧ (ns.foldl receive s).isIndexed = true := by
  induction ns generalizing s with
  | nil => exact ⟨rfl, h⟩
  | cons n ns ih =>
    obtain ⟨hlater, hstays⟩ := ih (isIndexed_receive h n)
    exact ⟨by simp [firings, h, hlater], hstays⟩

/-- The end of indexing is told at the first notice of it and never again. -/
theorem firings_eq (h : s.isBroken = false) (hindexed : s.isIndexed = false)
    (ns : List (Option Notice)) :
    firings s ns = ((heard ns).findIdx? s.settings.accepts).toList ∧
      (ns.foldl receive s).isIndexed = (heard ns).any s.settings.accepts := by
  induction ns generalizing s with
  | nil => exact ⟨rfl, hindexed⟩
  | cons n ns ih =>
    rcases n with _ | n
    · rw [firings, receive_none h, firings_of_isBroken rfl, foldl_receive_none h]
      simp [heard, hindexed]
    · have hnext : (s.receive (some n)).isIndexed = s.settings.accepts n := by
        rw [receive_some h, took, hindexed, Bool.false_or]
      rw [firings, List.foldl_cons, hindexed, hnext, heard, List.findIdx?_cons, List.any_cons]
      rcases haccepts : s.settings.accepts n with _ | _ <;> rw [haccepts] at hnext
      · obtain ⟨hlater, hany⟩ := ih (by rw [receive_some h]; exact h) hnext
        rw [settings_receive] at hlater hany
        rw [hlater, hany]
        cases (heard ns).findIdx? s.settings.accepts <;> simp
      · obtain ⟨hlater, hstays⟩ := firings_of_isIndexed hnext ns
        simp [hlater, hstays]

/-! ## Messages -/

section Messages

variable {m : ClientMessage} {reply : Except ServerError Value} {w w' : ω} {log : List Passage}

/-- Nothing is sent over a connection that is gone. -/
theorem send_of_isBroken (server : Server ω) (h : s.isBroken = true) (m : ClientMessage) (w : ω) :
    send server m (s, w) = (.error .stopped, s, w) := by
  simp [send, h]

theorem send_of_standing {server : Server ω} (h : s.isBroken = false)
    (hsend : server.send m w = (reply, ns, w')) :
    send server m (s, w) =
      (if (ns.foldl receive s).isBroken then .error .stopped else reply,
        ns.foldl receive s, w') := by
  simp [send, h, hsend]

theorem send_recorded {server : Server ω} (hsend : server.send m w = (reply, ns, w')) :
    server.recorded.send m (w, log) = (reply, ns, w', log ++ [.sent m reply ns]) := by
  simp only [Server.recorded, hsend]

/-- A message that has been answered or not, and the record of it. -/
theorem send_cases (server : Server ω) (m : ClientMessage) (s : Session) (w : ω)
    (log : List Passage) :
    (s.isBroken = true ∧ send server m (s, w) = (.error .stopped, s, w) ∧
      send server.recorded m (s, w, log) = (.error .stopped, s, w, log)) ∨
    ∃ reply ns w', s.isBroken = false ∧
      send server m (s, w) = (if (ns.foldl receive s).isBroken then .error .stopped else reply,
        ns.foldl receive s, w') ∧
      send server.recorded m (s, w, log) =
        (if (ns.foldl receive s).isBroken then .error .stopped else reply,
          ns.foldl receive s, w', log ++ [.sent m reply ns]) := by
  rcases h : s.isBroken with _ | _
  · obtain ⟨reply, ns, w', hsend⟩ : ∃ reply ns w', server.send m w = (reply, ns, w') :=
      ⟨_, _, _, rfl⟩
    exact .inr ⟨reply, ns, w', rfl, send_of_standing h hsend,
      send_of_standing h (send_recorded hsend)⟩
  · exact .inl ⟨rfl, send_of_isBroken server h m w, send_of_isBroken server.recorded h m _⟩

theorem openOnce_of_mem (server : Server ω) {uri : String} (h : uri ∈ s.opened) (content : String)
    (w : ω) : openOnce server uri content (s, w) = (.ok (), s, w) := by
  have hcontains : s.opened.contains uri = true := by simpa using h
  simp only [openOnce, hcontains, if_true]

theorem openOnce_of_not_mem (server : Server ω) {uri : String} (h : uri ∉ s.opened)
    (content : String) (w : ω) : openOnce server uri content (s, w) =
      match send server (.didOpen uri s.settings.languageId content) (s, w) with
      | (.ok _, s, w) => (.ok (), s.withOpened (uri :: s.opened), w)
      | (.error x, sw) => (.error x, sw) := by
  have hcontains : s.opened.contains uri = false := by simpa using h
  simp only [openOnce, hcontains, Bool.false_eq_true, if_false]
  rfl

theorem outline_snd (server : Server ω) (uri : String) (sw : Session × ω) :
    (outline server uri sw).2 = (send server (.documentSymbol uri) sw).2 := by
  unfold outline
  rcases send server (.documentSymbol uri) sw with ⟨x | result, sw'⟩
  · rfl
  · dsimp only
    cases outline? result <;> rfl

theorem declarations_snd (server : Server ω) (path content : String) (sw : Session × ω) :
    (declarations server path content sw).2 =
      match DocumentUri.ofPath? path with
      | none => sw
      | some uri =>
        match openOnce server uri content sw with
        | (.error _, sw) => sw
        | (.ok (), sw) => (send server (.documentSymbol uri) sw).2 := by
  unfold declarations
  rcases DocumentUri.ofPath? path with _ | uri
  · rfl
  dsimp only
  rcases openOnce server uri content sw with ⟨x | _, sw'⟩
  · rfl
  · dsimp only
    rw [← outline_snd]
    rcases outline server uri sw' with ⟨x | symbols, sw''⟩
    · rfl
    · dsimp only
      cases toDeclarations symbols content <;> rfl

/-- What a question about a document can do: what passes in its course, and the session after it. -/
inductive Course (uri content : String) (s : Session) : List Passage → Session → Prop
  | gone (h : s.isBroken = true) : Course uri content s [] s
  | known (h : s.isBroken = false) (hopen : uri ∈ s.opened) (reply : Except ServerError Value)
      (ns : List (Option Notice)) :
      Course uri content s [.sent (.documentSymbol uri) reply ns] (ns.foldl receive s)
  /-- The document cannot be opened, or the connection is gone right after. -/
  | refused (h : s.isBroken = false) (hopen : uri ∉ s.opened) (reply : Except ServerError Value)
      (ns : List (Option Notice))
      (hreply : (ns.foldl receive s).isBroken = false → reply.isOk = false) :
      Course uri content s [.sent (.didOpen uri s.settings.languageId content) reply ns]
        (ns.foldl receive s)
  | opened (h : s.isBroken = false) (hopen : uri ∉ s.opened) (a : Value)
      (ns : List (Option Notice)) (hstands : (ns.foldl receive s).isBroken = false)
      (reply : Except ServerError Value) (ns' : List (Option Notice)) :
      Course uri content s
        [.sent (.didOpen uri s.settings.languageId content) (.ok a) ns,
          .sent (.documentSymbol uri) reply ns']
        (ns'.foldl receive ((ns.foldl receive s).withOpened (uri :: s.opened)))

theorem course_declarations (server : Server ω) {path uri : String}
    (huri : DocumentUri.ofPath? path = some uri) (content : String) (s : Session) (w : ω) :
    Course uri content s (declarations server.recorded path content (s, w, [])).2.2.2
      (declarations server path content (s, w)).2.1 := by
  rw [declarations_snd, declarations_snd, huri]
  dsimp only
  by_cases hopen : uri ∈ s.opened
  · rw [openOnce_of_mem _ hopen, openOnce_of_mem _ hopen]
    dsimp only
    rcases send_cases server (.documentSymbol uri) s w [] with
      ⟨h, hsend, hrecorded⟩ | ⟨reply, ns, w', h, hsend, hrecorded⟩
    · rw [hsend, hrecorded]
      exact .gone h
    · rw [hsend, hrecorded]
      exact .known h hopen reply ns
  rw [openOnce_of_not_mem _ hopen, openOnce_of_not_mem _ hopen]
  rcases send_cases server (.didOpen uri s.settings.languageId content) s w [] with
    ⟨h, hsend, hrecorded⟩ | ⟨reply, ns, w', h, hsend, hrecorded⟩
  · rw [hsend, hrecorded]
    exact .gone h
  rw [hsend, hrecorded]
  rcases hstands : (ns.foldl receive s).isBroken with _ | _
  · rcases reply with x | a
    · exact .refused h hopen _ ns fun _ => rfl
    · simp only [Bool.false_eq_true, if_false, opened_foldl_receive]
      rcases send_cases server (.documentSymbol uri)
        ((ns.foldl receive s).withOpened (uri :: s.opened)) w'
        ([] ++ [.sent (.didOpen uri s.settings.languageId content) (.ok a) ns]) with
        ⟨hgone, -⟩ | ⟨reply', ns', w'', -, hsend', hrecorded'⟩
      · have hno : (ns.foldl receive s).isBroken = true := hgone
        rw [hstands] at hno
        cases hno
      · rw [hsend', hrecorded']
        exact .opened h hopen a ns hstands reply' ns'
  · exact .refused h hopen reply ns fun hno => by rw [hstands] at hno; cases hno

end Messages

theorem withOpened_course {uri content : String} {l : List Passage} {s' : Session}
    (h : Course uri content s l s') :
    s'.withOpened [] = (l.flatMap (·.notices)).foldl receive (s.withOpened []) := by
  cases h with
  | gone h => rfl
  | known h hopen reply ns => simp [Passage.notices, foldl_receive_withOpened]
  | refused h hopen reply ns hreply => simp [Passage.notices, foldl_receive_withOpened]
  | opened h hopen a ns hstands reply ns' =>
    simp only [List.flatMap_cons, List.flatMap_nil, List.append_nil, Passage.notices,
      List.foldl_append, foldl_receive_withOpened]
    rfl

/-! ## One document -/

/-- The attempts to open a document about which these contents have been asked: each question in
turn makes one, until one gets through. -/
def Opens (uri : String) (asked : List String) (log : List Passage) (s : Session) : Prop :=
  ∃ (refused : List String) (sent : Option String),
    tries uri log = refused.map (·, false) ++ sent.toList.map (·, true) ∧
    refused ++ sent.toList <+: asked ∧
    (s.isBroken = false →
      (sent.isSome = true ↔ uri ∈ s.opened) ∧ (sent = none → refused = asked))

/-- The symbols of a document are asked for only after it has been opened. -/
def Preceded (log : List Passage) : Prop :=
  ∀ before uri reply ns after, log = before ++ .sent (.documentSymbol uri) reply ns :: after →
    ∃ text, (text, true) ∈ tries uri before

section Document

variable {uri v content : String} {asked : List String} {log l : List Passage} {s' : Session}

theorem tries_append (uri : String) (log l : List Passage) :
    tries uri (log ++ l) = tries uri log ++ tries uri l := List.filterMap_append

theorem Opens.exists_sent (h : Opens uri asked log s) (hstands : s.isBroken = false)
    (hopen : uri ∈ s.opened) : ∃ text, (text, true) ∈ tries uri log := by
  obtain ⟨refused, sent, htries, -, hknown⟩ := h
  obtain ⟨text, rfl⟩ := Option.isSome_iff_exists.1 ((hknown hstands).1.2 hopen)
  exact ⟨text, by simp [htries]⟩

/-- Where no attempt is made and nothing is opened or closed, all stays as it was. -/
theorem Opens.of_silent (h : Opens uri asked log s) (hl : tries uri l = [])
    (hopened : uri ∈ s'.opened ↔ uri ∈ s.opened)
    (hbroken : s'.isBroken = false → s.isBroken = false) : Opens uri asked (log ++ l) s' := by
  obtain ⟨refused, sent, htries, hprefix, hknown⟩ := h
  refine ⟨refused, sent, by rw [tries_append, hl, List.append_nil, htries], hprefix,
    fun hstands => ?_⟩
  rw [hopened]
  exact hknown (hbroken hstands)

/-- A question that makes no attempt: the document is open, or the connection is gone. -/
theorem Opens.asked_again (h : Opens uri asked log s)
    (hs : s.isBroken = false → uri ∈ s.opened) (content : String) :
    Opens uri (asked ++ [content]) log s := by
  obtain ⟨refused, sent, htries, hprefix, hknown⟩ := h
  refine ⟨refused, sent, htries, hprefix.trans (List.prefix_append _ _), fun hstands => ?_⟩
  obtain ⟨hsent, -⟩ := hknown hstands
  refine ⟨hsent, fun hnone => ?_⟩
  rw [hnone] at hsent
  cases hsent.2 (hs hstands)

/-- A question that makes an attempt. -/
theorem Opens.tried (h : Opens uri asked log s) (hstands : s.isBroken = false)
    (hopen : uri ∉ s.opened) (got : Bool) (hl : tries uri l = [(content, got)])
    (hgot : s'.isBroken = false → (got = true ↔ uri ∈ s'.opened)) :
    Opens uri (asked ++ [content]) (log ++ l) s' := by
  obtain ⟨refused, sent, htries, -, hknown⟩ := h
  obtain ⟨hsent, hall⟩ := hknown hstands
  obtain rfl : sent = none := by
    rw [← Option.not_isSome_iff_eq_none, hsent]
    exact hopen
  obtain rfl := hall rfl
  rcases got with _ | _
  · refine ⟨refused ++ [content], none, by simp [tries_append, htries, hl], by simp, fun hs' => ?_⟩
    exact ⟨by simpa using hgot hs', fun _ => rfl⟩
  · refine ⟨refused, some content, by simp [tries_append, htries, hl], by simp, fun hs' => ?_⟩
    exact ⟨by simpa using hgot hs', fun hnone => by cases hnone⟩

/-- A question about one document, seen from any document. -/
theorem Opens.course (h : Opens uri asked log s) (hcourse : Course v content s l s') :
    Opens uri (asked ++ if v = uri then [content] else []) (log ++ l) s' := by
  by_cases hv : v = uri
  · subst hv
    rw [if_pos rfl]
    cases hcourse with
    | gone hs =>
      rw [List.append_nil]
      exact h.asked_again (fun hno => by rw [hs] at hno; cases hno) content
    | known hs hopen reply ns =>
      exact (h.asked_again (fun _ => hopen) content).of_silent rfl (by simp) fun _ => hs
    | refused hs hopen reply ns hreply =>
      refine h.tried hs hopen reply.isOk (by simp [tries, Passage.attempt?]) fun hs' => ?_
      simp [hreply hs', hopen]
    | opened hs hopen a ns hstands reply ns' =>
      refine h.tried hs hopen true (by simp [tries, Passage.attempt?, Except.isOk,
        Except.toBool]) fun hs' => ?_
      simp [withOpened]
  · rw [if_neg hv, List.append_nil]
    cases hcourse with
    | gone hs => exact h.of_silent rfl Iff.rfl id
    | known hs hopen reply ns => exact h.of_silent rfl (by simp) fun _ => hs
    | refused hs hopen reply ns hreply =>
      exact h.of_silent (by simp [tries, Passage.attempt?, hv]) (by simp) fun _ => hs
    | opened hs hopen a ns hstands reply ns' =>
      refine h.of_silent (by simp [tries, Passage.attempt?, hv]) ?_ fun _ => hs
      simp [withOpened, Ne.symm hv]

theorem Preceded.append (h : Preceded log) {x : Passage}
    (hx : ∀ uri reply ns, x = .sent (.documentSymbol uri) reply ns →
      ∃ text, (text, true) ∈ tries uri log) : Preceded (log ++ [x]) := by
  intro before uri reply ns after hlog
  rcases List.eq_nil_or_concat after with rfl | ⟨after, y, rfl⟩
  · obtain ⟨rfl, hlast⟩ := List.append_inj' hlog rfl
    exact hx uri reply ns (List.cons.inj hlast).1
  · rw [List.concat_eq_append, ← List.cons_append, ← List.append_assoc] at hlog
    exact h before uri reply ns after (List.append_inj' hlog rfl).1

theorem Preceded.course (h : Preceded log) (hopens : Opens v asked log s)
    (hcourse : Course v content s l s') : Preceded (log ++ l) := by
  cases hcourse with
  | gone hs => rwa [List.append_nil]
  | known hs hopen reply ns =>
    refine h.append fun uri reply ns heq => ?_
    cases heq
    exact hopens.exists_sent hs hopen
  | refused hs hopen reply ns hreply => exact h.append fun uri reply ns heq => by cases heq
  | opened hs hopen a ns hstands reply ns' =>
    rw [List.append_cons]
    refine (h.append fun uri reply ns heq => by cases heq).append fun uri reply ns heq => ?_
    cases heq
    refine ⟨content, ?_⟩
    rw [tries_append]
    exact List.mem_append_right _ (by simp [tries, Passage.attempt?, Except.isOk, Except.toBool])

end Document

/-! ## Whole sessions -/

/-- What has passed when these things have happened, and the session that they have led to. -/
structure InStep (settings : Settings) (done : List Happening) (log : List Passage)
    (s : Session) : Prop where
  told : s.withOpened [] = (log.flatMap (·.notices)).foldl receive { settings }
  opens : ∀ uri, Opens uri (contents uri done) log s
  preceded : Preceded log

variable {settings : Settings} {done : List Happening} {log : List Passage}

theorem contents_append (uri : String) (hs hs' : List Happening) :
    contents uri (hs ++ hs') = contents uri hs ++ contents uri hs' := List.filterMap_append

theorem InStep.happen (h : InStep settings done log s) (x : Happening) (w : ω) :
    InStep settings (done ++ [x]) (log ++ passages server x (s, w))
      (happen server x (s, w)).1 := by
  cases x with
  | said n =>
    refine ⟨?_, fun uri => ?_, ?_⟩
    · rw [List.flatMap_append, List.foldl_append, ← h.told]
      exact (receive_withOpened s [] n).symm
    · rw [contents_append, show contents uri [.said n] = [] from rfl, List.append_nil]
      refine (h.opens uri).of_silent rfl ?_ fun hstands => ?_
      · rw [Session.happen, opened_receive]
      · by_contra hbroken
        rw [Bool.not_eq_false] at hbroken
        rw [Session.happen, receive_of_isBroken hbroken, hbroken] at hstands
        cases hstands
    · exact h.preceded.append fun uri reply ns heq => by cases heq
  | asked path content =>
    rcases hpath : DocumentUri.ofPath? path with _ | v
    · have hnothing : passages server (.asked path content) (s, w) = [] := by
        simp only [passages, declarations_snd, hpath]
      have hsame : Session.happen server (.asked path content) (s, w) = (s, w) := by
        simp only [Session.happen, declarations_snd, hpath]
      rw [hnothing, hsame, List.append_nil]
      refine ⟨h.told, fun uri => ?_, h.preceded⟩
      have hno : contents uri [.asked path content] = [] := by simp [contents, hpath]
      rw [contents_append, hno, List.append_nil]
      exact h.opens uri
    · have hcourse := course_declarations server hpath content s w
      refine ⟨?_, fun uri => ?_, h.preceded.course (h.opens v) hcourse⟩
      · rw [List.flatMap_append, List.foldl_append, ← h.told]
        exact withOpened_course hcourse
      · have hone : contents uri [.asked path content] = if v = uri then [content] else [] := by
          by_cases hv : v = uri <;> simp [contents, hpath, hv]
        rw [contents_append, hone]
        exact (h.opens uri).course hcourse

theorem InStep.conduct (h : InStep settings done log s) (hs : List Happening) (w : ω) :
    InStep settings (done ++ hs) (log ++ transcript server hs (s, w))
      (conduct server hs (s, w)).1 := by
  induction hs generalizing done log s w with
  | nil => simpa [transcript, Session.conduct] using h
  | cons x hs ih =>
    have hnext := ih (h.happen server x w) (Session.happen server x (s, w)).2
    rw [List.append_assoc, List.append_assoc] at hnext
    exact hnext

/-- A message that is no question about a document leaves the session in step. -/
theorem InStep.send (h : InStep settings done log s) {m : ClientMessage}
    (hopen : ∀ uri languageId text, m ≠ .didOpen uri languageId text)
    (hask : ∀ uri, m ≠ .documentSymbol uri) (w : ω) :
    ∃ answer s' w' l, Session.send server m (s, w) = (answer, s', w') ∧
      Session.send server.recorded m (s, w, log) = (answer, s', w', log ++ l) ∧
      InStep settings done (log ++ l) s' := by
  rcases send_cases server m s w log with
    ⟨hgone, hsend, hrecorded⟩ | ⟨reply, ns, w', hs, hsend, hrecorded⟩
  · exact ⟨_, s, w, [], hsend, by rw [hrecorded, List.append_nil], by rwa [List.append_nil]⟩
  · refine ⟨_, _, w', [.sent m reply ns], hsend, hrecorded, ?_, fun uri => ?_, ?_⟩
    · rw [List.flatMap_append, List.foldl_append, ← h.told, foldl_receive_withOpened]
      simp [Passage.notices]
    · refine (h.opens uri).of_silent ?_ (by simp) fun _ => hs
      cases m with
      | didOpen u languageId text => exact absurd rfl (hopen u languageId text)
      | _ => rfl
    · refine h.preceded.append fun uri reply' ns' heq => ?_
      cases heq
      exact absurd rfl (hask uri)

theorem inStep_start (settings : Settings) (w : ω) :
    InStep settings [] (start server.recorded settings (w, [])).2.2.2
      (start server settings w).2.1 := by
  have hfirst : InStep settings [] [] { settings } :=
    ⟨rfl, fun uri => ⟨[], none, rfl, List.prefix_refl _, fun _ => ⟨by simp, fun _ => rfl⟩⟩,
      fun before uri reply ns after hlog => by simp at hlog⟩
  unfold start
  dsimp only
  rcases DocumentUri.ofDirectory? settings.root with _ | uri
  · exact hfirst
  dsimp only
  obtain ⟨answer, s', w', l, hsend, hrecorded, hgreeted⟩ := hfirst.send server
    (m := .greet settings.processId uri settings.options) (fun _ _ _ h => by cases h)
    (fun _ h => by cases h) w
  rw [hsend, hrecorded]
  rcases answer with x | result
  · exact hgreeted
  dsimp only
  split_ifs
  · obtain ⟨answer, s'', w'', l', hsend, hrecorded, hready⟩ := hgreeted.send server (m := .ready)
      (fun _ _ _ h => by cases h) (fun _ h => by cases h) w'
    rw [hsend, hrecorded]
    rcases answer with x | a <;> exact hready
  · exact hgreeted

/-- What passes in a session, whatever the server replies and however questions and notices follow
each other. Each question about a document makes an attempt to open it with the content it was
asked with, until one gets through, so at most one does; a question that makes none while the
document is not open finds the connection gone. No question for the symbols of a document is sent
before the document has been opened. The complaints about a file are the latest about its URI, and
none if there are none. The end of indexing is told once, at the first end of work that is waited
for. Nothing is heard after a notice that cannot be read, with which the connection is gone. -/
theorem conduct_in_order (settings : Settings) (w : ω) (hs : List Happening) :
    let begun := (start server settings w).2
    let log := (start server.recorded settings (w, [])).2.2.2 ++ transcript server hs begun
    let notices := log.flatMap (·.notices)
    let s := (conduct server hs begun).1
    (∀ uri, ∃ (refused : List String) (sent : Option String),
      tries uri log = refused.map (·, false) ++ sent.toList.map (·, true) ∧
      refused ++ sent.toList <+: contents uri hs ∧
      (s.isBroken = false → sent = none → refused = contents uri hs)) ∧
    (∀ before uri reply ns after, log = before ++ .sent (.documentSymbol uri) reply ns :: after →
      ∃ text, (text, true) ∈ tries uri before) ∧
    (∀ path uri, DocumentUri.ofPath? path = some uri →
      s.diagnostics path = ((heard notices).reverse.findSome? (·.complaints? uri)).getD []) ∧
    firings { settings } notices = ((heard notices).findIdx? settings.accepts).toList ∧
    s.isIndexed = (heard notices).any settings.accepts ∧
    (s.isBroken = true ↔ none ∈ notices) := by
  intro begun log notices s
  obtain ⟨htold, hopens, hpreceded⟩ := (inStep_start server settings w).conduct server hs begun.2
  have hkept : s.withOpened [] = notices.foldl receive { settings } := htold
  obtain ⟨hfirings, hindexed⟩ := firings_eq (s := { settings }) rfl rfl notices
  refine ⟨fun uri => ?_, hpreceded, fun path uri hpath => ?_, hfirings, ?_, ?_⟩
  · obtain ⟨refused, sent, htries, hprefix, hknown⟩ := hopens uri
    exact ⟨refused, sent, htries, hprefix, fun hstands => (hknown hstands).2⟩
  · have hpublished : s.published = (notices.foldl receive { settings }).published := by
      rw [← hkept]
      rfl
    simp only [diagnostics, hpath, complaintsAbout, hpublished]
    rw [lookup_foldl_receive rfl, List.lookup_nil, Option.or_none]
  · rw [← hindexed, ← hkept]
    rfl
  · rw [← isBroken_foldl_receive (s := { settings }) rfl notices, ← hkept]
    rfl

end Session

end CodeGraph.LanguageServer
