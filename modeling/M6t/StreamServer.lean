import M6t.Runs
import M6t.Fault

/-! The stream server: who is let in, which connections it keeps, whom an event is sent to and
what a shutdown closes, for any number of requests, publishers and shutdowns at once. -/
namespace M6t.StreamServer
open M6t.Text M6t.Fault M6t.Runs

def protocolVersion : Str := "m6t.v1".toList
def authSubprotocolPrefix : Str := "m6t.token.".toList
def bearerPrefix : Str := "Bearer ".toList
def wailsScheme : Str := "wails".toList
def wailsHost : Str := "wails.localhost".toList
def localhostHost : Str := "localhost".toList

def errNotStarted : Failure := ⟨[],.system "stream server is not started"⟩

inductive Route where
  | terminal (sessionID : Str)
  | events
  deriving DecidableEq, Repr

@[simp] def Route.session : Route → Option Str
  | .terminal id => some id
  | .events => none

structure Request where
  route : Route
  authorization : Str
  protocols : Str
  origin : Str
  deriving DecidableEq, Repr

def Listable (name : Str) : Prop := name ≠ [] ∧ ∀ c ∈ name, c ≠ ',' ∧ isSpace c = false

def listed (names : List Str) : Str := ", ".toList.intercalate names

structure Net where
  parse : Str → Option (Str × Str)
  parseIP : Str → Option Bool
  subprotocols : Str → List Str
  offers : ∀ names, (∀ name ∈ names, Listable name) → subprotocols (listed names) = names

section Door
variable (net : Net)

def requestToken (r : Request) : Str :=
  if r.authorization ≠ [] then (cutPrefix bearerPrefix r.authorization).getD []
  else ((net.subprotocols r.protocols).findSome? (cutPrefix authSubprotocolPrefix)).getD []

def authorized (token : Str) (r : Request) : Prop := requestToken net r = token
instance (token r) : Decidable (authorized net token r) := by unfold authorized; infer_instance

def originAllowed (origin : Str) : Bool :=
  if origin = [] then true
  else match net.parse origin with
    | none => false
    | some (scheme,host) =>
      if scheme = wailsScheme then true
      else if host = localhostHost ∨ host = wailsHost then true
      else (net.parseIP host).getD false

end Door

inductive Reply where
  | unauthorized
  | notFound
  | forbidden
  | refused (status : Nat)
  | served
  deriving DecidableEq, Repr

/-- Where a request's handler is: before the token check, the attach, the upgrade, the detach
of a refused upgrade, the registration, in its read loop, before the last detach, before it
unregisters. -/
inductive Phase where
  | arrived
  | attaching
  | upgrading
  | undoing (reply : Reply)
  | registering
  | reading
  | detaching
  | unregistering
  | done (reply : Reply)
  deriving DecidableEq, Repr

structure Handler where
  request : Request
  phase : Phase
  attached : Option Str
  detached : Bool
  closed : Bool
  deriving DecidableEq, Repr

@[simp] def Handler.to (h : Handler) (phase : Phase) : Handler := { h with phase }

structure Publication (ε : Type) where
  event : ε
  seen : List (Nat × Bool)
  rest : List Nat
  deriving DecidableEq, Repr

structure Shutdown where
  seen : List (Nat × Bool)
  rest : List Nat
  deriving DecidableEq, Repr

/-- A connection is known by the number of its request. `queued` is each call of `send`, the
connection and the number of the publication. -/
structure Server (ε : Type) where
  token : Str
  http : Option Nat
  startErr : Option Failure
  handlers : List Handler
  conns : List (Nat × Bool)
  publications : List (Publication ε)
  queued : List (Nat × Nat)
  shutdowns : List Shutdown
  deriving DecidableEq

variable {ε : Type}

def newServer (token : Str) : Server ε := ⟨token,none,none,[],[],[],[],[]⟩

structure Endpoint where
  port : Nat
  token : Str
  deriving DecidableEq, Repr

def endpoint (s : Server ε) : Answer Endpoint :=
  match s.http with
  | some port => .ok ⟨port,s.token⟩
  | none => .error (s.startErr.getD errNotStarted)

inductive Event (ε : Type) where
  | start (outcome : Answer Nat)
  | request (r : Request)
  | check (i : Nat)
  | attach (i : Nat) (found : Bool)
  | upgrade (i : Nat) (failure : Option Nat)
  | undo (i : Nat)
  | register (i : Nat)
  | closes (i : Nat)
  | readEnds (i : Nat)
  | detach (i : Nat)
  | unregister (i : Nat)
  | publish (event : ε)
  | send (p c : Nat)
  | shutdown
  | closeLive (k c : Nat)

namespace Server

def put (s : Server ε) (i : Nat) (h : Handler) : Server ε := { s with handlers := s.handlers.set i h }

def close (s : Server ε) (i : Nat) : Server ε :=
  match s.handlers[i]? with
  | some h => s.put i { h with closed := true }
  | none => s

def register (s : Server ε) (i : Nat) (wantsEvents : Bool) : Server ε :=
  { s with conns := (i,wantsEvents) :: s.conns.filter (fun entry => entry.1 ≠ i) }

def unregister (s : Server ε) (i : Nat) : Server ε := { s with conns := s.conns.filter (fun entry => entry.1 ≠ i) }

end Server

def subscribers (conns : List (Nat × Bool)) : List Nat := (conns.filter Prod.snd).map Prod.fst

def refusal (net : Net) (r : Request) (failure : Option Nat) : Option Reply :=
  match failure with
  | some status => some (.refused status)
  | none => if originAllowed net r.origin = true then none else some .forbidden

def serving (net : Net) (token : Str) (h : Handler) : Event ε → Option Handler
  | .check _ =>
    if h.phase = .arrived then
      if authorized net token h.request then
        some (h.to (match h.request.route with | .terminal _ => .attaching | .events => .upgrading))
      else some (h.to (.done .unauthorized))
    else none
  | .attach _ found =>
    if h.phase = .attaching then
      if found then some { h with phase := .upgrading, attached := h.request.route.session } else some (h.to (.done .notFound))
    else none
  | .upgrade _ failure =>
    if h.phase = .upgrading then
      match refusal net h.request failure,h.request.route with
      | none,_ => some (h.to .registering)
      | some reply,.terminal _ => some (h.to (.undoing reply))
      | some reply,.events => some (h.to (.done reply))
    else none
  | .undo _ =>
    match h.phase with
    | .undoing reply => some { h with phase := .done reply, detached := true }
    | _ => none
  | .register _ => if h.phase = .registering then some (h.to .reading) else none
  | .readEnds _ =>
    if h.phase = .reading then
      some { h with
        phase := match h.request.route with | .terminal _ => .detaching | .events => .unregistering
        closed := true }
    else none
  | .detach _ => if h.phase = .detaching then some { h with phase := .unregistering, detached := true } else none
  | .unregister _ => if h.phase = .unregistering then some (h.to (.done .served)) else none
  | _ => none

def Server.noted (s : Server ε) (i : Nat) (r : Request) : Event ε → Server ε
  | .register _ => s.register i (r.route = .events)
  | .unregister _ => s.unregister i
  | _ => s

def handling (net : Net) (s : Server ε) (i : Nat) (e : Event ε) : Option (Server ε) :=
  (s.handlers[i]?).bind (fun h => (serving net s.token h e).map (fun t => (s.put i t).noted i h.request e))

def step (net : Net) (s : Server ε) (e : Event ε) : Option (Server ε) :=
  match e with
  | .start outcome =>
    if s.http ≠ none then none
    else match outcome with
      | .ok port => some { s with http := some port, startErr := none }
      | .error err => some { s with startErr := some (err.wrap [.text "binding the stream server"]) }
  -- a listener answers until the shutdown that took it stops it, so requests come at any time
  | .request r => some { s with handlers := s.handlers ++ [⟨r,.arrived,none,false,false⟩] }
  | .check i | .attach i _ | .upgrade i _ | .undo i | .register i | .readEnds i | .detach i | .unregister i =>
    handling net s i e
  -- the write pump and the forwarder close a connection too
  | .closes i =>
    match s.handlers[i]? with
    | some h => if h.phase = .reading then some (s.close i) else none
    | none => none
  | .publish event => some { s with publications := s.publications ++ [⟨event,s.conns,subscribers s.conns⟩] }
  | .send p c =>
    match s.publications[p]? with
    | some made =>
      if c ∈ made.rest then
        some { s with
          publications := s.publications.set p { made with rest := made.rest.erase c }
          queued := s.queued ++ [(c,p)] }
      else none
    | none => none
  | .shutdown =>
    some { s with
      http := none
      conns := []
      shutdowns := s.shutdowns ++ [⟨s.conns,s.conns.map Prod.fst⟩] }
  | .closeLive k c =>
    match s.shutdowns[k]? with
    | some d =>
      if c ∈ d.rest then some ({ s with shutdowns := s.shutdowns.set k { d with rest := d.rest.erase c } }.close c) else none
    | none => none

namespace Phase

@[simp] def upgraded : Phase → Bool
  | .registering | .reading | .detaching | .unregistering | .done .served => true
  | _ => false

@[simp] def live : Phase → Bool
  | .reading | .detaching | .unregistering => true
  | _ => false

@[simp] def ended : Phase → Bool
  | .detaching | .unregistering | .done .served => true
  | _ => false

@[simp] def attaches : Phase → Bool
  | .arrived | .attaching | .done .unauthorized | .done .notFound => false
  | _ => true

@[simp] def released : Phase → Bool
  | .unregistering | .done .forbidden | .done (.refused _) | .done .served => true
  | _ => false

end Phase

structure Handler.Good (net : Net) (token : Str) (h : Handler) : Prop where
  refused : h.phase = .done .unauthorized → ¬authorized net token h.request
  entered : h.phase ≠ .arrived → h.phase ≠ .done .unauthorized → authorized net token h.request
  forbidden : h.phase = .undoing .forbidden ∨ h.phase = .done .forbidden → originAllowed net h.request.origin = false
  upgraded : h.phase.upgraded = true → originAllowed net h.request.origin = true
  attached : h.attached = if h.phase.attaches = true then h.request.route.session else none
  detached : h.detached = true ↔ h.phase.released = true ∧ h.attached ≠ none
  undoing : ∀ reply, h.phase = .undoing reply → reply = .forbidden ∨ ∃ status, reply = .refused status
  terminal : h.phase = .attaching ∨ (∃ reply, h.phase = .undoing reply) ∨ h.phase = .detaching → h.request.route.session ≠ none
  ended : h.phase.ended = true → h.closed = true

section Handlers
variable {net : Net} {token : Str} {h t : Handler}

theorem arrivedGood (r : Request) : Handler.Good net token ⟨r,.arrived,none,false,false⟩ := by
  constructor <;> simp [Phase.upgraded,Phase.attaches,Phase.released,Phase.ended]

/-- What a handler's step finds before it and leaves behind, one case for each branch of the two endpoints. -/
inductive Serves (net : Net) (token : Str) (h : Handler) : Event ε → Handler → Prop where
  | admits {i} (arrived : h.phase = .arrived) (known : authorized net token h.request)
      (route : h.request.route.session ≠ none) : Serves net token h (.check i) (h.to .attaching)
  | subscribes {i} (arrived : h.phase = .arrived) (known : authorized net token h.request)
      (route : h.request.route.session = none) : Serves net token h (.check i) (h.to .upgrading)
  | rejects {i} (arrived : h.phase = .arrived) (unknown : ¬authorized net token h.request) :
      Serves net token h (.check i) (h.to (.done .unauthorized))
  | attaches {i} (waits : h.phase = .attaching) :
      Serves net token h (.attach i true) { h with phase := .upgrading, attached := h.request.route.session }
  | misses {i} (waits : h.phase = .attaching) : Serves net token h (.attach i false) (h.to (.done .notFound))
  | upgrades {i} (waits : h.phase = .upgrading) (allowed : originAllowed net h.request.origin = true) :
      Serves net token h (.upgrade i none) (h.to .registering)
  | undoes {i failure reply} (waits : h.phase = .upgrading) (why : refusal net h.request failure = some reply)
      (route : h.request.route.session ≠ none) : Serves net token h (.upgrade i failure) (h.to (.undoing reply))
  | refuses {i failure reply} (waits : h.phase = .upgrading) (why : refusal net h.request failure = some reply)
      (route : h.request.route.session = none) : Serves net token h (.upgrade i failure) (h.to (.done reply))
  | undone {i reply} (undoing : h.phase = .undoing reply) :
      Serves net token h (.undo i) { h with phase := .done reply, detached := true }
  | registers {i} (waits : h.phase = .registering) : Serves net token h (.register i) (h.to .reading)
  | leaves {i} (reads : h.phase = .reading) (route : h.request.route.session ≠ none) :
      Serves net token h (.readEnds i) { h with phase := .detaching, closed := true }
  | drains {i} (reads : h.phase = .reading) (route : h.request.route.session = none) :
      Serves net token h (.readEnds i) { h with phase := .unregistering, closed := true }
  | detaches {i} (waits : h.phase = .detaching) :
      Serves net token h (.detach i) { h with phase := .unregistering, detached := true }
  | forgets {i} (waits : h.phase = .unregistering) : Serves net token h (.unregister i) (h.to (.done .served))

theorem servingCases {e : Event ε} (taken : serving net token h e = some t) : Serves net token h e t := by
  cases e with
  | check i =>
    simp only [serving] at taken
    split at taken
    · next arrived =>
      split at taken
      · next known =>
        cases route : h.request.route with
        | terminal id =>
          simp only [route,Option.some.injEq] at taken
          exact taken ▸ .admits arrived known (by simp [route])
        | events =>
          simp only [route,Option.some.injEq] at taken
          exact taken ▸ .subscribes arrived known (by simp [route])
      · next unknown => exact Option.some.inj taken ▸ .rejects arrived unknown
    · cases taken
  | attach i found =>
    simp only [serving] at taken
    split at taken
    · next waits =>
      cases found with
      | true => exact Option.some.inj taken ▸ .attaches waits
      | false => exact Option.some.inj taken ▸ .misses waits
    · cases taken
  | upgrade i failure =>
    simp only [serving] at taken
    split at taken
    · next waits =>
      cases why : refusal net h.request failure with
      | none =>
        simp only [why,Option.some.injEq] at taken
        cases failure with
        | some status => simp [refusal] at why
        | none => exact taken ▸ .upgrades waits (by simpa [refusal] using why)
      | some reply =>
        cases route : h.request.route with
        | terminal id =>
          simp only [why,route,Option.some.injEq] at taken
          exact taken ▸ .undoes waits why (by simp [route])
        | events =>
          simp only [why,route,Option.some.injEq] at taken
          exact taken ▸ .refuses waits why (by simp [route])
    · cases taken
  | undo i =>
    simp only [serving] at taken
    split at taken
    · next reply undoing => exact Option.some.inj taken ▸ .undone undoing
    · cases taken
  | register i =>
    simp only [serving] at taken
    split at taken
    · next waits => exact Option.some.inj taken ▸ .registers waits
    · cases taken
  | readEnds i =>
    simp only [serving] at taken
    split at taken
    · next reads =>
      cases route : h.request.route with
      | terminal id =>
        simp only [route,Option.some.injEq] at taken
        exact taken ▸ .leaves reads (by simp [route])
      | events =>
        simp only [route,Option.some.injEq] at taken
        exact taken ▸ .drains reads (by simp [route])
    · cases taken
  | detach i =>
    simp only [serving] at taken
    split at taken
    · next waits => exact Option.some.inj taken ▸ .detaches waits
    · cases taken
  | unregister i =>
    simp only [serving] at taken
    split at taken
    · next waits => exact Option.some.inj taken ▸ .forgets waits
    · cases taken
  | _ => simp [serving] at taken

theorem refusalCases {r : Request} {failure : Option Nat} {reply : Reply} (why : refusal net r failure = some reply) :
    reply = .forbidden ∧ originAllowed net r.origin = false ∨ ∃ status, reply = .refused status := by
  cases failure with
  | some status => exact Or.inr ⟨status,(Option.some.inj why).symm⟩
  | none =>
    simp only [refusal] at why
    split at why
    · cases why
    · next closed => exact Or.inl ⟨(Option.some.inj why).symm,by simpa using closed⟩

theorem Serves.good {e : Event ε} (serves : Serves net token h e t) (good : h.Good net token) : t.Good net token := by
  obtain ⟨refused,entered,forbidden,upgraded,attached,detached,undoing,terminal,ended⟩ := good
  cases serves with
  | undoes waits why route | refuses waits why route =>
    rcases refusalCases why with ⟨rfl,closed⟩ | ⟨status,rfl⟩
    · constructor <;> simp_all
    · constructor <;> simp_all
  | undone waits =>
    rcases undoing _ waits with rfl | ⟨status,rfl⟩
    · constructor <;> simp_all
    · constructor <;> simp_all
  | _ => constructor <;> simp_all

theorem Handler.Good.shut (good : h.Good net token) : Handler.Good net token { h with closed := true } :=
  ⟨good.refused,good.entered,good.forbidden,good.upgraded,good.attached,good.detached,good.undoing,good.terminal,fun _ => rfl⟩

theorem Serves.keeps {e : Event ε} (serves : Serves net token h e t) :
    t.request = h.request ∧ (h.closed = true → t.closed = true) ∧
      (h.phase.upgraded = true → t.phase.upgraded = true) ∧
      (h.phase.live = true → t.phase.live = true ∨ ∃ i, e = .unregister i) ∧
      (t.phase = .reading → ∃ i, e = .register i) := by
  cases serves with
  | forgets waits => exact ⟨rfl,id,by simp,fun _ => Or.inr ⟨_,rfl⟩,by simp⟩
  | registers waits => exact ⟨rfl,id,by simp,by simp,fun _ => ⟨_,rfl⟩⟩
  | _ => exact ⟨rfl,by simp_all,by simp_all,by simp_all,by simp⟩

end Handlers

structure Sound (net : Net) (s : Server ε) : Prop where
  handlers : ∀ (i : Nat) (h : Handler), s.handlers[i]? = some h → h.Good net s.token
  conns : ∀ (i : Nat) (wants : Bool), (i,wants) ∈ s.conns →
    ∃ h : Handler, s.handlers[i]? = some h ∧ h.phase.live = true ∧ wants = decide (h.request.route = .events)
  once : (s.conns.map Prod.fst).Nodup
  kept : ∀ (i : Nat) (h : Handler), s.handlers[i]? = some h → h.phase = .reading → h.closed = false →
    i ∈ s.conns.map Prod.fst ∨ ∃ d ∈ s.shutdowns, i ∈ d.rest
  shut : ∀ d ∈ s.shutdowns, ∀ i ∈ d.seen.map Prod.fst,
    ∃ h : Handler, s.handlers[i]? = some h ∧ (i ∈ d.rest ∨ h.closed = true)
  rests : ∀ d ∈ s.shutdowns, d.rest ⊆ d.seen.map Prod.fst
  told : ∀ (p : Nat) (made : Publication ε), s.publications[p]? = some made → (made.seen.map Prod.fst).Nodup ∧
    ∀ c, s.queued.count (c,p) + made.rest.count c = (subscribers made.seen).count c
  audience : ∀ made ∈ s.publications, ∀ (c : Nat) (wants : Bool), (c,wants) ∈ made.seen →
    ∃ h : Handler, s.handlers[c]? = some h ∧ h.phase.upgraded = true ∧ wants = decide (h.request.route = .events)
  untold : ∀ p, s.publications.length ≤ p → ∀ c, s.queued.count (c,p) = 0

theorem newSound (net : Net) (token : Str) : Sound net (newServer token : Server ε) := by
  constructor <;> simp [newServer]

section Steps
variable {net : Net} {s : Server ε}

theorem Sound.moved {i : Nat} {h t : Handler} {conns : List (Nat × Bool)} (sound : Sound net s)
    (here : s.handlers[i]? = some h) (good : t.Good net s.token) (request : t.request = h.request)
    (closed : h.closed = true → t.closed = true) (upgraded : h.phase.upgraded = true → t.phase.upgraded = true) (once : (conns.map Prod.fst).Nodup)
    (entries : ∀ j wants, (j,wants) ∈ conns →
      j = i ∧ t.phase.live = true ∧ wants = decide (h.request.route = .events) ∨ j ≠ i ∧ (j,wants) ∈ s.conns)
    (others : ∀ j ≠ i, j ∈ s.conns.map Prod.fst → j ∈ conns.map Prod.fst)
    (reads : t.phase = .reading → t.closed = false → i ∈ conns.map Prod.fst) :
    Sound net { s with handlers := s.handlers.set i t, conns } := by
  have bound : i < s.handlers.length := (List.getElem?_eq_some_iff.mp here).1
  have self : (s.handlers.set i t)[i]? = some t := List.getElem?_set_self bound
  have other : ∀ j ≠ i, (s.handlers.set i t)[j]? = s.handlers[j]? := fun j apart => List.getElem?_set_ne (Ne.symm apart)
  refine ⟨?_,?_,once,?_,?_,sound.rests,sound.told,?_,sound.untold⟩
  · intro j k there
    by_cases same : j = i
    · subst same
      rw [self] at there
      cases there
      exact good
    · rw [other j same] at there
      exact sound.handlers j k there
  · intro j wants member
    rcases entries j wants member with ⟨rfl,live,wants⟩ | ⟨apart,old⟩
    · exact ⟨t,self,live,request ▸ wants⟩
    · obtain ⟨k,there,live⟩ := sound.conns j wants old
      exact ⟨k,(other j apart).trans there,live⟩
  · intro j k there reading unclosed
    by_cases same : j = i
    · subst same
      rw [self] at there
      cases there
      exact Or.inl (reads reading unclosed)
    · rw [other j same] at there
      exact (sound.kept j k there reading unclosed).imp_left (others j same)
  · intro d member j seen
    obtain ⟨k,there,done⟩ := sound.shut d member j seen
    by_cases same : j = i
    · subst same
      rw [here] at there
      cases there
      exact ⟨t,self,done.imp_right closed⟩
    · exact ⟨k,(other j same).trans there,done⟩
  · intro made member c wants seen
    obtain ⟨k,there,past,flag⟩ := sound.audience made member c wants seen
    by_cases same : c = i
    · subst same
      rw [here] at there
      cases there
      exact ⟨t,self,upgraded past,request ▸ flag⟩
    · exact ⟨k,(other c same).trans there,past,flag⟩

theorem Sound.handled {i : Nat} {e : Event ε} {t : Server ε} (sound : Sound net s)
    (taken : handling net s i e = some t) : Sound net t := by
  obtain ⟨h,here,mapped⟩ := Option.bind_eq_some_iff.mp taken
  obtain ⟨u,served,rfl⟩ := Option.map_eq_some_iff.mp mapped
  have serves := servingCases served
  obtain ⟨request,closed,upgraded,live,reads⟩ := serves.keeps
  have good := serves.good (sound.handlers i h here)
  have shorter : ((s.conns.filter (fun entry => entry.1 ≠ i)).map Prod.fst).Nodup :=
    sound.once.sublist (List.filter_sublist.map Prod.fst)
  have others : ∀ j ≠ i, j ∈ s.conns.map Prod.fst → j ∈ (s.conns.filter (fun entry => entry.1 ≠ i)).map Prod.fst := by
    intro j apart member
    obtain ⟨entry,there,rfl⟩ := List.mem_map.mp member
    exact List.mem_map_of_mem (List.mem_filter.mpr ⟨there,by simpa using apart⟩)
  have kept : ∀ j wants, (j,wants) ∈ s.conns.filter (fun entry => entry.1 ≠ i) → j ≠ i ∧ (j,wants) ∈ s.conns := by
    intro j wants member
    obtain ⟨there,apart⟩ := List.mem_filter.mp member
    exact ⟨by simpa using apart,there⟩
  by_cases registers : ∃ j, e = .register j
  · obtain ⟨j,rfl⟩ := registers
    cases serves with
    | registers waits =>
      refine sound.moved here good request closed upgraded ?_ ?_ ?_ (fun _ _ => by simp)
      · refine List.nodup_cons.mpr ⟨fun again => ?_,shorter⟩
        obtain ⟨entry,member,same⟩ := List.mem_map.mp again
        exact (kept _ _ member).1 same
      · intro k wants member
        rcases List.mem_cons.mp member with new | old
        · cases new
          exact Or.inl ⟨rfl,rfl,rfl⟩
        · exact Or.inr (kept k wants old)
      · exact fun k apart member => List.mem_cons_of_mem _ (others k apart member)
  · by_cases leaves : ∃ j, e = .unregister j
    · obtain ⟨j,rfl⟩ := leaves
      exact sound.moved here good request closed upgraded shorter (fun k wants member => Or.inr (kept k wants member)) others
        (fun reading _ => absurd (reads reading) (by simp))
    · have plain : (s.put i u).noted i h.request e = s.put i u := by
        cases e with
        | register j => exact absurd ⟨j,rfl⟩ registers
        | unregister j => exact absurd ⟨j,rfl⟩ leaves
        | _ => rfl
      rw [plain]
      refine sound.moved here good request closed upgraded sound.once ?_ (fun _ _ member => member)
        (fun reading _ => absurd (reads reading) registers)
      intro k wants member
      by_cases same : k = i
      · subst same
        obtain ⟨v,there,alive,flag⟩ := sound.conns k wants member
        rw [here] at there
        cases there
        exact Or.inl ⟨rfl,(live alive).resolve_right leaves,flag⟩
      · exact Or.inr ⟨same,member⟩

theorem Sound.close (sound : Sound net s) (i : Nat) : Sound net (s.close i) := by
  unfold Server.close
  cases here : s.handlers[i]? with
  | none => exact sound
  | some h =>
    refine sound.moved here (sound.handlers i h here).shut rfl (fun _ => rfl) id sound.once ?_ (fun _ _ member => member) nofun
    intro j wants member
    by_cases same : j = i
    · subst same
      obtain ⟨v,there,live,flag⟩ := sound.conns j wants member
      rw [here] at there
      cases there
      exact Or.inl ⟨rfl,live,flag⟩
    · exact Or.inr ⟨same,member⟩

theorem closeClosed {i : Nat} {h : Handler} (here : s.handlers[i]? = some h) :
    ∃ h, (s.close i).handlers[i]? = some h ∧ h.closed = true := by
  refine ⟨{ h with closed := true },?_,rfl⟩
  simp only [Server.close,here]
  exact List.getElem?_set_self (List.getElem?_eq_some_iff.mp here).1

theorem Sound.request (sound : Sound net s) (r : Request) :
    Sound net { s with handlers := s.handlers ++ [⟨r,.arrived,none,false,false⟩] } := by
  have older : ∀ (i : Nat) (h : Handler), s.handlers[i]? = some h →
      (s.handlers ++ [⟨r,.arrived,none,false,false⟩])[i]? = some h := fun i h here => by
    rw [List.getElem?_append_left (List.getElem?_eq_some_iff.mp here).1,here]
  have cases_ : ∀ (i : Nat) (h : Handler), (s.handlers ++ [⟨r,.arrived,none,false,false⟩])[i]? = some h →
      s.handlers[i]? = some h ∨ h = ⟨r,.arrived,none,false,false⟩ := fun i h there => by
    rw [List.getElem?_append] at there
    split at there
    · exact Or.inl there
    · exact Or.inr (by simpa using List.mem_of_getElem? there)
  refine ⟨?_,?_,sound.once,?_,?_,sound.rests,sound.told,?_,sound.untold⟩
  · intro i h there
    rcases cases_ i h there with old | rfl
    · exact sound.handlers i h old
    · exact arrivedGood r
  · intro i wants member
    obtain ⟨h,here,rest⟩ := sound.conns i wants member
    exact ⟨h,older i h here,rest⟩
  · intro i h there reading
    rcases cases_ i h there with old | rfl
    · exact sound.kept i h old reading
    · cases reading
  · intro d member i seen
    obtain ⟨h,here,rest⟩ := sound.shut d member i seen
    exact ⟨h,older i h here,rest⟩
  · intro made member c wants seen
    obtain ⟨h,here,rest⟩ := sound.audience made member c wants seen
    exact ⟨h,older c h here,rest⟩

theorem liveUpgraded {phase : Phase} (live : phase.live = true) : phase.upgraded = true := by
  cases phase <;> simp_all

theorem Sound.publish (sound : Sound net s) (event : ε) :
    Sound net { s with publications := s.publications ++ [⟨event,s.conns,subscribers s.conns⟩] } := by
  refine ⟨sound.handlers,sound.conns,sound.once,sound.kept,sound.shut,sound.rests,?_,?_,?_⟩
  · intro p made there
    rw [List.getElem?_append] at there
    split at there
    · exact sound.told p made there
    · next far =>
      have new : made = ⟨event,s.conns,subscribers s.conns⟩ := by simpa using List.mem_of_getElem? there
      subst new
      refine ⟨sound.once,fun c => ?_⟩
      show s.queued.count (c,p) + (subscribers s.conns).count c = _
      rw [sound.untold p (by omega) c,Nat.zero_add]
  · intro made member c wants seen
    rcases List.mem_append.mp member with old | new
    · exact sound.audience made old c wants seen
    · cases List.mem_singleton.mp new
      obtain ⟨h,here,live,flag⟩ := sound.conns c wants seen
      exact ⟨h,here,liveUpgraded live,flag⟩
  · intro p far c
    rw [List.length_append] at far
    exact sound.untold p (by omega) c

theorem Sound.send {p c : Nat} {made : Publication ε} (sound : Sound net s) (there : s.publications[p]? = some made)
    (waits : c ∈ made.rest) :
    Sound net { s with
      publications := s.publications.set p { made with rest := made.rest.erase c }
      queued := s.queued ++ [(c,p)] } := by
  have bound : p < s.publications.length := (List.getElem?_eq_some_iff.mp there).1
  refine ⟨sound.handlers,sound.conns,sound.once,sound.kept,sound.shut,sound.rests,?_,?_,?_⟩
  · intro q other at_
    by_cases same : q = p
    · subst same
      rw [List.getElem?_set_self bound] at at_
      cases at_
      obtain ⟨once,counts⟩ := sound.told q made there
      refine ⟨once,fun d => ?_⟩
      have total := counts d
      by_cases this_ : d = c
      · subst this_
        have positive : 0 < made.rest.count d := List.count_pos_iff.mpr waits
        simp only [List.count_append,List.count_erase_self,List.count_singleton_self]
        omega
      · have apart : ((c,q) == (d,q)) = false := by simpa using Ne.symm this_
        simp only [List.count_append,List.count_erase_of_ne this_,List.count_singleton,apart]
        simpa using total
    · rw [List.getElem?_set_ne (Ne.symm same)] at at_
      obtain ⟨once,counts⟩ := sound.told q other at_
      refine ⟨once,fun d => ?_⟩
      have apart : ((c,p) == (d,q)) = false := by simp [Ne.symm same]
      simp only [List.count_append,List.count_singleton,apart]
      simpa using counts d
  · intro other member
    rcases memSetCases member with rfl | ⟨_,_,old⟩
    · exact sound.audience made (List.mem_of_getElem? there)
    · exact sound.audience other (List.mem_of_getElem? old)
  · intro q far d
    rw [List.length_set] at far
    have apart : ((c,p) == (d,q)) = false := by
      have : p ≠ q := by omega
      simp [this]
    simp only [List.count_append,List.count_singleton,apart]
    simpa using sound.untold q far d

theorem Sound.shutdown (sound : Sound net s) :
    Sound net { s with
      http := none
      conns := []
      shutdowns := s.shutdowns ++ [⟨s.conns,s.conns.map Prod.fst⟩] } := by
  refine ⟨sound.handlers,nofun,List.nodup_nil,?_,?_,?_,sound.told,sound.audience,sound.untold⟩
  · intro i h here reading unclosed
    rcases sound.kept i h here reading unclosed with held | ⟨d,member,waits⟩
    · exact Or.inr ⟨_,List.mem_append_right _ (List.mem_singleton_self _),held⟩
    · exact Or.inr ⟨d,List.mem_append_left _ member,waits⟩
  · intro d member i seen
    rcases List.mem_append.mp member with old | new
    · exact sound.shut d old i seen
    · cases List.mem_singleton.mp new
      obtain ⟨entry,there,rfl⟩ := List.mem_map.mp seen
      obtain ⟨h,here,_⟩ := sound.conns entry.1 entry.2 there
      exact ⟨h,here,Or.inl seen⟩
  · intro d member
    rcases List.mem_append.mp member with old | new
    · exact sound.rests d old
    · cases List.mem_singleton.mp new
      exact fun _ => id

theorem Sound.dropped {k c : Nat} {d : Shutdown} {h : Handler} (sound : Sound net s) (there : s.shutdowns[k]? = some d)
    (here : s.handlers[c]? = some h) (closed : h.closed = true) :
    Sound net { s with shutdowns := s.shutdowns.set k { d with rest := d.rest.erase c } } := by
  have member : d ∈ s.shutdowns := List.mem_of_getElem? there
  have news : ∀ e ∈ s.shutdowns.set k { d with rest := d.rest.erase c },
      e = { d with rest := d.rest.erase c } ∨ e ∈ s.shutdowns := fun e inside =>
    (memSetCases inside).imp_right (fun ⟨_,_,old⟩ => List.mem_of_getElem? old)
  refine ⟨sound.handlers,sound.conns,sound.once,?_,?_,?_,sound.told,sound.audience,sound.untold⟩
  · intro i g at_ reading unclosed
    refine (sound.kept i g at_ reading unclosed).imp_right (fun ⟨e,inside,waits⟩ => ?_)
    by_cases same : e = d
    · subst same
      refine ⟨_,memSetSelf there,(List.mem_erase_of_ne ?_).mpr waits⟩
      rintro rfl
      rw [here] at at_
      cases at_
      rw [closed] at unclosed
      cases unclosed
    · exact ⟨e,memSet there inside same,waits⟩
  · intro e inside i seen
    rcases news e inside with rfl | old
    · obtain ⟨g,at_,waits⟩ := sound.shut d member i seen
      refine ⟨g,at_,?_⟩
      by_cases same : i = c
      · subst same
        rw [here] at at_
        cases at_
        exact Or.inr closed
      · exact waits.imp_left (List.mem_erase_of_ne same).mpr
    · exact sound.shut e old i seen
  · intro e inside
    rcases news e inside with rfl | old
    · exact fun i waits => sound.rests d member (List.mem_of_mem_erase waits)
    · exact sound.rests e old

theorem Sound.step {e : Event ε} {t : Server ε} (sound : Sound net s) (taken : StreamServer.step net s e = some t) :
    Sound net t := by
  cases e with
  | start outcome =>
    simp only [StreamServer.step] at taken
    split at taken
    · cases taken
    · cases outcome with
      | ok port =>
        cases taken
        exact ⟨sound.handlers,sound.conns,sound.once,sound.kept,sound.shut,sound.rests,sound.told,sound.audience,sound.untold⟩
      | error err =>
        cases taken
        exact ⟨sound.handlers,sound.conns,sound.once,sound.kept,sound.shut,sound.rests,sound.told,sound.audience,sound.untold⟩
  | request r => exact Option.some.inj taken ▸ sound.request r
  | check i | attach i found | upgrade i failure | undo i | register i | readEnds i | detach i | unregister i =>
    exact sound.handled taken
  | closes i =>
    simp only [StreamServer.step] at taken
    split at taken
    · split at taken
      · exact Option.some.inj taken ▸ sound.close i
      · cases taken
    · cases taken
  | publish event => exact Option.some.inj taken ▸ sound.publish event
  | send p c =>
    simp only [StreamServer.step] at taken
    split at taken
    · next made there =>
      split at taken
      · next waits => exact Option.some.inj taken ▸ sound.send there waits
      · cases taken
    · cases taken
  | shutdown => exact Option.some.inj taken ▸ sound.shutdown
  | closeLive k c =>
    simp only [StreamServer.step] at taken
    split at taken
    · next d there =>
      split at taken
      · next waits =>
        obtain ⟨h,here,_⟩ := sound.shut d (List.mem_of_getElem? there) c (sound.rests d (List.mem_of_getElem? there) waits)
        obtain ⟨g,after,closed⟩ := closeClosed here
        have dropped := (sound.close c).dropped (k := k) (d := d) (by simpa [Server.close,here,Server.put] using there) after closed
        have same : ({ s with shutdowns := s.shutdowns.set k { d with rest := d.rest.erase c } } : Server ε).close c =
            { s.close c with shutdowns := (s.close c).shutdowns.set k { d with rest := d.rest.erase c } } := by
          simp only [Server.close,here,Server.put]
        rw [← Option.some.inj taken,same]
        exact dropped
      · cases taken
    · cases taken

end Steps

theorem stepToken {net : Net} {s t : Server ε} {e : Event ε} (taken : step net s e = some t) : t.token = s.token := by
  have handled : ∀ i, handling net s i e = some t → t.token = s.token := by
    intro i taken
    obtain ⟨h,_,mapped⟩ := Option.bind_eq_some_iff.mp taken
    obtain ⟨u,_,rfl⟩ := Option.map_eq_some_iff.mp mapped
    cases e <;> rfl
  have closed : ∀ (s : Server ε) i, (s.close i).token = s.token := by
    intro s i
    unfold Server.close
    split <;> rfl
  cases e with
  | check i | attach i found | upgrade i failure | undo i | register i | readEnds i | detach i | unregister i =>
    exact handled i taken
  | request r | publish event | shutdown =>
    cases taken
    rfl
  | start outcome =>
    simp only [step] at taken
    split at taken
    · cases taken
    · cases outcome <;> (cases taken; rfl)
  | closes i =>
    simp only [step] at taken
    split at taken
    · split at taken
      · exact Option.some.inj taken ▸ closed s i
      · cases taken
    · cases taken
  | send p c =>
    simp only [step] at taken
    split at taken
    · split at taken
      · cases taken
        rfl
      · cases taken
    · cases taken
  | closeLive k c =>
    simp only [step] at taken
    split at taken
    · split at taken
      · exact Option.some.inj taken ▸ closed _ c
      · cases taken
    · cases taken

def windowSubprotocols (endpoint : Endpoint) : List Str := [protocolVersion,authSubprotocolPrefix ++ endpoint.token]

def windowRequest (endpoint : Endpoint) (route : Route) (origin : Str) : Request :=
  ⟨route,[],listed (windowSubprotocols endpoint),origin⟩

theorem splitListed {names : List Str} (listable : ∀ name ∈ names, Listable name) (some_ : names ≠ []) :
    ((listed names).splitOn ',').map trimSpace = names := by
  have plain : ∀ name ∈ names, ',' ∉ name := fun name member comma => ((listable name member).2 _ comma).1 rfl
  have trimmed : ∀ name ∈ names, trimSpace name = name := fun name member => by
    have unspaced : name.dropWhile isSpace = name :=
      dropWhileSelf (fun c head => ((listable name member).2 c (List.mem_of_mem_head? head)).2)
    rw [trimSpace,unspaced,List.rdropWhile_eq_self_iff]
    intro whole
    simpa using ((listable name member).2 _ (List.getLast_mem whole)).2
  induction names with
  | nil => exact absurd rfl some_
  | cons name names ih =>
    cases names with
    | nil =>
      rw [show listed [name] = name from by simp [listed],List.splitOn_eq_singleton (plain name (by simp)),List.map_singleton,
        trimmed name (by simp)]
    | cons next rest =>
      have joined : listed (name :: next :: rest) = name ++ ',' :: ' ' :: listed (next :: rest) := by
        rw [listed,List.intercalate_cons_cons,List.append_assoc]
        rfl
      have later := ih (fun n member => listable n (by simp [member])) (by simp)
        (fun n member => plain n (by simp [member])) (fun n member => trimmed n (by simp [member]))
      have spaced : ∀ text : Str, trimSpace (' ' :: text) = trimSpace text := fun _ => rfl
      rw [joined,List.splitOn_append_cons_self_of_not_mem (plain name (by simp)),List.map_cons,trimmed name (by simp),
        List.splitOn_cons_eq_if_modifyHead,if_neg (by decide)]
      cases parts : (listed (next :: rest)).splitOn ',' with
      | nil => exact absurd parts (List.splitOn_ne_nil _ _)
      | cons first others =>
        rw [parts] at later
        rw [List.modifyHead_cons,List.map_cons,spaced,← List.map_cons,later]

def plainNet : Net where
  parse origin :=
    if origin = "wails://wails".toList then some (wailsScheme,"wails".toList)
    else if origin = "http://evil.example".toList then some ("http".toList,"evil.example".toList) else none
  parseIP _ := none
  subprotocols header := if header = [] then [] else (header.splitOn ',').map trimSpace
  offers names listable := by
    rcases eq_or_ne names [] with rfl | some_
    · rfl
    · have split := splitListed listable some_
      split
      · next none_ =>
        have blank : ([] : Str) ∈ names := by
          rw [← split,none_]
          decide
        exact absurd rfl (listable [] blank).1
      · exact split

def secret : Str := "TUVWXYZ234567".toList

def scene : List (Event Str) :=
  [.start (.ok 7000),.request (windowRequest ⟨7000,secret⟩ (.terminal "pty-1".toList) "wails://wails".toList),
    .request ⟨.events,bearerPrefix ++ secret,[],[]⟩,.request ⟨.terminal "pty-1".toList,bearerPrefix ++ "guess".toList,[],[]⟩,
    .request (windowRequest ⟨7000,secret⟩ (.terminal "pty-1".toList) "http://evil.example".toList),
    .check 0,.check 1,.check 2,.check 3,.attach 3 true,.attach 0 true,.upgrade 3 none,.upgrade 0 none,.upgrade 1 none,.undo 3,
    .register 0,.register 1,.publish "git".toList,.send 0 1]

def ending : List (Event Str) := scene ++ [.shutdown,.closeLive 0 0,.closeLive 0 1]

section Runs
variable (net : Net) {token : Str} {es : List (Event ε)} {s : Server ε}

theorem runSound (run : Run (step net) anyStep (newServer token) es s) : Sound net s ∧ s.token = token :=
  run.invariant (I := fun s => Sound net s ∧ s.token = token) ⟨newSound net token,rfl⟩
    (fun _ _ _ sound _ taken => ⟨sound.1.step taken,(stepToken taken).trans sound.2⟩)

structure Guarded (net : Net) (token : Str) (h : Handler) : Prop where
  refused : h.phase = .done .unauthorized → ¬authorized net token h.request
  attached : ∀ id, h.attached = some id → authorized net token h.request ∧ h.request.route = .terminal id
  upgraded : h.phase.upgraded = true → authorized net token h.request ∧ originAllowed net h.request.origin = true
  released : ∀ reply, h.phase = .done reply → h.attached ≠ none → h.detached = true
  closed : h.phase = .done .served → h.closed = true

theorem Handler.Good.guarded {h : Handler} (good : h.Good net token) : Guarded net token h := by
  refine ⟨good.refused,?_,?_,?_,fun served => good.ended (by simp [served])⟩
  · intro id there
    have attached := good.attached
    rw [there] at attached
    split at attached
    · next attaches =>
      refine ⟨good.entered (by rintro arrived; simp [arrived] at attaches) (by rintro refused; simp [refused] at attaches),?_⟩
      cases route : h.request.route with
      | terminal other => simpa [route] using attached.symm
      | events => simp [route] at attached
    · cases attached
  · intro upgraded
    exact ⟨good.entered (by rintro arrived; simp [arrived] at upgraded) (by rintro refused; simp [refused] at upgraded),
      good.upgraded upgraded⟩
  · intro reply ended some_
    refine good.detached.mpr ⟨?_,some_⟩
    have attached := good.attached
    cases reply <;> simp_all

theorem doorKept (run : Run (step net) anyStep (newServer token) es s) :
    (∀ (i : Nat) (h : Handler), s.handlers[i]? = some h → Guarded net token h) ∧
    ∀ (i : Nat) (wants : Bool), (i,wants) ∈ s.conns →
      ∃ h : Handler, s.handlers[i]? = some h ∧ h.phase.live = true ∧ wants = decide (h.request.route = .events) := by
  obtain ⟨sound,rfl⟩ := runSound net run
  exact ⟨fun i h here => (sound.handlers i h here).guarded,sound.conns⟩

theorem countSubscribers {seen : List (Nat × Bool)} (once : (seen.map Prod.fst).Nodup) (c : Nat) :
    (subscribers seen).count c = if (c,true) ∈ seen then 1 else 0 := by
  have apart : (subscribers seen).Nodup := once.sublist (List.filter_sublist.map Prod.fst)
  have member : c ∈ subscribers seen ↔ (c,true) ∈ seen := by simp [subscribers]
  rw [apart.count]
  simp only [member]

theorem sceneKept : ∃ s, Run (step plainNet) anyStep (newServer secret) scene s ∧
    s.conns = [(1,true),(0,false)] ∧
    s.handlers.map (fun h => (h.phase,h.attached.isSome,h.detached)) =
      [(.reading,true,false),(.reading,false,false),(.done .unauthorized,false,false),(.done .forbidden,true,true)] ∧
    ∀ (i : Nat) (h : Handler), s.handlers[i]? = some h → Guarded plainNet secret h := by
  have ends : (exec (step plainNet) (newServer secret) scene).map (fun s =>
      (s.conns,s.handlers.map (fun h => (h.phase,h.attached.isSome,h.detached)))) =
      some ([(1,true),(0,false)],
        [(.reading,true,false),(.reading,false,false),(.done .unauthorized,false,false),(.done .forbidden,true,true)]) := by
    decide +kernel
  obtain ⟨s,done,seen⟩ := Option.map_eq_some_iff.mp ends
  simp only [Prod.mk.injEq] at seen
  exact ⟨s,runOfExec done,seen.1,seen.2,(doorKept plainNet (runOfExec done)).1⟩

theorem publishedOnce (run : Run (step net) anyStep (newServer token) es s) (p : Nat) (made : Publication ε)
    (published : s.publications[p]? = some made) (sent : made.rest = []) (c : Nat) :
    s.queued.count (c,p) = (if (c,true) ∈ made.seen then 1 else 0) ∧
      ((c,true) ∈ made.seen → ∃ h : Handler, s.handlers[c]? = some h ∧ h.request.route = .events ∧
        authorized net token h.request ∧ originAllowed net h.request.origin = true) := by
  obtain ⟨sound,rfl⟩ := runSound net run
  obtain ⟨once,counts⟩ := sound.told p made published
  constructor
  · have total := counts c
    rw [sent,List.count_nil,Nat.add_zero] at total
    rw [total,countSubscribers once]
  · intro inside
    obtain ⟨h,here,upgraded,flag⟩ := sound.audience made (List.mem_of_getElem? published) c true inside
    exact ⟨h,here,of_decide_eq_true flag.symm,((sound.handlers c h here).guarded).upgraded upgraded⟩

theorem sceneTold : ∃ s, Run (step plainNet) anyStep (newServer secret) scene s ∧
    s.queued.count (1,0) = 1 ∧ s.queued.count (0,0) = 0 := by
  have ends : (exec (step plainNet) (newServer secret) scene).map Server.publications =
      some [⟨"git".toList,[(1,true),(0,false)],[]⟩] := by decide +kernel
  obtain ⟨s,done,made⟩ := Option.map_eq_some_iff.mp ends
  have told := publishedOnce plainNet (runOfExec done) 0 ⟨"git".toList,[(1,true),(0,false)],[]⟩ (by rw [made]; rfl) rfl
  exact ⟨s,runOfExec done,(told 1).1,(told 0).1⟩

theorem shutdownCloses (run : Run (step net) anyStep (newServer token) es s) :
    (∀ d ∈ s.shutdowns, d.rest = [] → ∀ i ∈ d.seen.map Prod.fst,
      ∃ h : Handler, s.handlers[i]? = some h ∧ h.closed = true) ∧
    ((∀ d ∈ s.shutdowns, d.rest = []) → ∀ (i : Nat) (h : Handler), s.handlers[i]? = some h → h.phase = .reading →
      h.closed = false → i ∈ s.conns.map Prod.fst) := by
  obtain ⟨sound,-⟩ := runSound net run
  constructor
  · intro d member finished i seen
    obtain ⟨h,here,waits⟩ := sound.shut d member i seen
    rw [finished] at waits
    exact ⟨h,here,waits.resolve_left List.not_mem_nil⟩
  · intro finished i h here reading unclosed
    refine (sound.kept i h here reading unclosed).resolve_right (fun ⟨d,member,waits⟩ => ?_)
    rw [finished d member] at waits
    cases waits

theorem endingCloses : ∃ s, Run (step plainNet) anyStep (newServer secret) ending s ∧
    s.shutdowns = [⟨[(1,true),(0,false)],[]⟩] ∧
    ∀ i ∈ [1,0], ∃ h : Handler, s.handlers[i]? = some h ∧ h.closed = true := by
  have ends : (exec (step plainNet) (newServer secret) ending).map Server.shutdowns = some [⟨[(1,true),(0,false)],[]⟩] := by
    decide +kernel
  obtain ⟨s,done,made⟩ := Option.map_eq_some_iff.mp ends
  exact ⟨s,runOfExec done,made,
    (shutdownCloses plainNet (runOfExec done)).1 ⟨[(1,true),(0,false)],[]⟩ (by rw [made]; exact List.mem_singleton_self _) rfl⟩

end Runs

theorem listablePlain {name : Str} (some_ : name ≠ []) (plain : name.all (fun c => c ≠ ',' && !isSpace c) = true) :
    Listable name := by
  refine ⟨some_,fun c inside => ?_⟩
  simpa using List.all_eq_true.mp plain c inside

theorem versionListable : Listable protocolVersion := listablePlain (by decide +kernel) (by decide +kernel)

theorem tokenListable {token : Str} (listable : Listable token) : Listable (authSubprotocolPrefix ++ token) := by
  have fixed : Listable authSubprotocolPrefix := listablePlain (by decide +kernel) (by decide +kernel)
  refine ⟨fun empty => listable.1 (List.append_eq_nil_iff.mp empty).2,fun c inside => ?_⟩
  rcases List.mem_append.mp inside with start | own
  · exact fixed.2 c start
  · exact listable.2 c own

theorem windowToken (net : Net) {token : Str} (port : Nat) (listable : Listable token) (route : Route) (origin : Str) :
    requestToken net (windowRequest ⟨port,token⟩ route origin) = token := by
  have offered : net.subprotocols (listed (windowSubprotocols ⟨port,token⟩)) = windowSubprotocols ⟨port,token⟩ := by
    refine net.offers _ (fun name member => ?_)
    rcases List.mem_pair.mp member with rfl | rfl
    · exact versionListable
    · exact tokenListable listable
  have plain : cutPrefix authSubprotocolPrefix protocolVersion = none := by decide +kernel
  have cut : cutPrefix authSubprotocolPrefix (authSubprotocolPrefix ++ token) = some token := cutPrefixExact.mpr rfl
  simp only [requestToken,windowRequest,offered]
  simp only [windowSubprotocols,List.findSome?_cons,plain,cut]
  rfl

theorem windowAdmitted (net : Net) {token : Str} {es : List (Event ε)} {s : Server ε} (listable : Listable token)
    (run : Run (step net) anyStep (newServer token) es s) (found : Endpoint) (known : endpoint s = .ok found) (route : Route)
    (origin : Str) (allowed : originAllowed net origin = true) (i : Nat) (h : Handler) (here : s.handlers[i]? = some h)
    (own : h.request = windowRequest found route origin) :
    h.phase ≠ .done .unauthorized ∧ h.phase ≠ .done .forbidden ∧ ∀ id, h.attached = some id → route = .terminal id := by
  obtain ⟨sound,rfl⟩ := runSound net run
  have good := sound.handlers i h here
  have token : found.token = s.token := by
    unfold endpoint at known
    split at known
    · cases known
      rfl
    · cases known
  have presents : authorized net s.token h.request := by
    obtain ⟨port,_⟩ := found
    cases token
    rw [authorized,own]
    exact windowToken net port listable route origin
  refine ⟨fun refused => good.refused refused presents,fun refused => ?_,fun id there => ?_⟩
  · have closed := good.forbidden (Or.inr refused)
    rw [own] at closed
    exact Bool.false_ne_true (closed.symm.trans allowed)
  · have routed := (good.guarded.attached id there).2
    rw [own] at routed
    exact routed

theorem sceneAdmitted : ∃ (s : Server Str) (h : Handler), Run (step plainNet) anyStep (newServer secret) scene s ∧
    endpoint s = .ok ⟨7000,secret⟩ ∧ s.handlers[0]? = some h ∧ h.attached = some "pty-1".toList ∧
    h.phase ≠ .done .unauthorized := by
  have ends : (exec (step plainNet) (newServer secret) scene).map (fun s => (s.http,s.token,s.handlers[0]?)) =
      some (some 7000,secret,some ⟨windowRequest ⟨7000,secret⟩ (.terminal "pty-1".toList) "wails://wails".toList,.reading,
        some "pty-1".toList,false,false⟩) := by decide +kernel
  obtain ⟨s,done,seen⟩ := Option.map_eq_some_iff.mp ends
  simp only [Prod.mk.injEq] at seen
  obtain ⟨port,token,here⟩ := seen
  have known : endpoint s = .ok ⟨7000,secret⟩ := by rw [endpoint,port,token]
  exact ⟨s,_,runOfExec done,known,here,rfl,
    (windowAdmitted plainNet (listablePlain (by decide +kernel) (by decide +kernel)) (runOfExec done) ⟨7000,secret⟩ known (.terminal "pty-1".toList)
      "wails://wails".toList (by decide +kernel) 0 _ here rfl).1⟩

end M6t.StreamServer
