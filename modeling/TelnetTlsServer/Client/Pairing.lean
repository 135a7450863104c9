-- SUMMARY: A session of the server and the development client over two byte streams: under any pace of delivery both ends settle on the same options.
import TelnetTlsServer.Client.Speech
import TelnetTlsServer.Session.Echo
import TelnetTlsServer.Session.Replies

/-!
# The server and its client

A session that has been started, the development client, and the two streams of the TLS
connection between them. Each end writes as its code does; what has been written reaches
the other end a byte at a time, in order and at any pace. The user types, resizes the
window or quits, the application polls, and the server may refuse a flood of bytes, all
at any time.

`Position` relates the ends: each parser stands where the grammar does in the stream it
reads, what is still to be read are whole tokens, and the option commands among them
fit both option states as `Network.Steady` has it.
-/

open TelnetGrammar (State Token ahead Whole negotiations)
open Transition

/-! ## The system -/

inductive ClientStatus where
  | running
  /-- The input ended, or a signal asked the client to stop. -/
  | quit
  /-- A call returned -1. -/
  | failed
deriving DecidableEq, Repr

structure Pairing (β α σ : Type) where
  server : Conn β α
  client : ClientState σ
  status : ClientStatus
  /-- How many bytes of the server the client has read. -/
  clientRead : Nat
  serverRead : Nat

namespace Pairing

variable {β α σ : Type}

def toClient (p : Pairing β α σ) : Bytes := p.server.link.wire.written.drop p.clientRead

def toServer (p : Pairing β α σ) : Bytes := p.client.sent.drop p.serverRead

/-- What `main` of the client reads from the terminal at once. -/
def terminalReadMax : Nat := 4096

inductive Move where
  | poll
  | byteFlood
  /-- The server reads a byte. -/
  | serverReads (nowMs : UInt64)
  | clientReads
  | typed (input : Bytes) (h : input.length ≤ terminalReadMax)
  | windowChanged
  | quit

/-- A call of the client; the first one that fails ends its loop. -/
def clientCall (host : ClientHost σ) (p : Pairing β α σ) (result : Bool × ClientState σ) :
    Pairing β α σ :=
  if result.1 then { p with client := result.2 }
  else { p with client := result.2.finish host, status := .failed }

def move (host : Host β α) (clientHost : ClientHost σ) (p : Pairing β α σ) :
    Move → Pairing β α σ
  | .poll => { p with server := p.server.act host .poll }
  | .byteFlood => { p with server := p.server.act host .byteFlood }
  | .serverReads nowMs =>
      match p.toServer with
      | [] => p
      | byte :: _ =>
          { p with
            server := p.server.act host (.byte byte nowMs)
            serverRead := p.serverRead + 1 }
  | .clientReads =>
      if p.status ≠ .running then p
      else
        match p.toClient with
        | [] => p
        | byte :: _ =>
            { p with clientRead := p.clientRead + 1 }.clientCall clientHost
              (p.client.processServerByte clientHost byte)
  | .typed input _ =>
      if p.status ≠ .running then p
      else p.clientCall clientHost (p.client.sendTerminalInput clientHost input)
  | .windowChanged =>
      if p.status ≠ .running then p
      else p.clientCall clientHost (p.client.sendWindowSize clientHost)
  | .quit =>
      if p.status ≠ .running then p
      else { p with client := p.client.finish clientHost, status := .quit }

/-- A session that was just started, and the client after the handshake. -/
def opened (host : Host β α) (backend : β) (app : α) (world : σ)
    (savedTerminal : Option Termios) : Pairing β α σ where
  server := (Conn.initial host backend app).start host
  client := .initial world savedTerminal
  status := .running
  clientRead := 0
  serverRead := 0

def system (host : Host β α) (clientHost : ClientHost σ) :
    Transition.System (Pairing β α σ) Move where
  init p := ∃ backend app world savedTerminal, p = opened host backend app world savedTerminal
  step l p p' := p' = p.move host clientHost l

/-- The client is in its loop, and the server has not asked for a close. -/
def live (p : Pairing β α σ) : Bool := p.status = .running && !p.server.closed

/-- Everything that was written has been read. -/
def quiet (p : Pairing β α σ) : Bool := p.toClient = [] && p.toServer = []

/-! ## How the ends stand to each other -/

end Pairing

/-- What a started session wishes for. -/
def Link.wish {α : Type} (hooks : Application α) (l : Link α) (d : TelnetQDirection) (o : UInt8) :
    Bool :=
  if d = .local_ ∧ o = Telnet.Opt.echo then l.caps.echoDesired
  else (operational hooks).contains (d, o)

namespace Link

variable {α : Type} {hooks : Application α} {l l' : Link α}

/-- No request of a session takes an operational option back. -/
theorem wished_of_asks {requests : List OptionRequest} (hasks : ∀ r ∈ requests, Asks hooks r)
    {wish : TelnetQDirection → UInt8 → Bool} {d : TelnetQDirection} {o : UInt8}
    (hecho : ¬ (d = .local_ ∧ o = Telnet.Opt.echo))
    (hwish : wish d o = (operational hooks).contains (d, o)) :
    requests.foldl OptionRequest.wished wish d o = (operational hooks).contains (d, o) := by
  induction requests generalizing wish with
  | nil => exact hwish
  | cons r rest ih =>
    rw [List.forall_mem_cons] at hasks
    refine ih hasks.2 ?_
    unfold OptionRequest.wished
    split
    case isTrue hsame =>
      obtain ⟨rfl, rfl⟩ := hsame
      rcases hasks.1 with hr | ⟨henable, hmem⟩
      · exact absurd hr hecho
      · rw [henable, List.contains_iff_mem.mpr hmem]
    case isFalse => exact hwish

/-- The wishes after some requests are those of the new state. -/
theorem wish_of_speaks {requests : List OptionRequest} (hasks : ∀ r ∈ requests, Asks hooks r)
    (hspeaks : Speaks requests l l') :
    requests.foldl OptionRequest.wished (l.wish hooks) = l'.wish hooks := by
  funext d o
  by_cases hecho : d = .local_ ∧ o = Telnet.Opt.echo
  · obtain ⟨rfl, rfl⟩ := hecho
    rw [hspeaks.desired (l.wish hooks) (if_pos ⟨rfl, rfl⟩)]
    exact (if_pos ⟨rfl, rfl⟩).symm
  · rw [wished_of_asks hasks hecho (if_neg hecho)]
    exact (if_neg hecho).symm

theorem wished_of_enabling (options : List (TelnetQDirection × UInt8))
    (wish : TelnetQDirection → UInt8 → Bool) (d : TelnetQDirection) (o : UInt8) :
    (options.map fun (d, o) => (⟨d, o, true⟩ : OptionRequest)).foldl OptionRequest.wished wish d o =
      (options.contains (d, o) || wish d o) := by
  induction options generalizing wish with
  | nil => rfl
  | cons first rest ih =>
    obtain ⟨d', o'⟩ := first
    rw [List.map_cons, List.foldl_cons, ih, List.contains_cons]
    by_cases hsame : d = d' ∧ o = o'
    · obtain ⟨rfl, rfl⟩ := hsame
      simp [OptionRequest.wished]
    · have hne : ((d, o) == (d', o')) = false := by simpa using hsame
      simp [OptionRequest.wished, if_neg hsame, hne]

/-- The wishes of a session that was just started. -/
theorem wish_of_start (hdesired : l.caps.echoDesired = false)
    (hspeaks : Speaks ((operational hooks).map fun (d, o) => ⟨d, o, true⟩) l l') :
    ((operational hooks).map fun (d, o) => (⟨d, o, true⟩ : OptionRequest)).foldl
      OptionRequest.wished (fun _ _ => false) = l'.wish hooks := by
  funext d o
  by_cases hecho : d = .local_ ∧ o = Telnet.Opt.echo
  · obtain ⟨rfl, rfl⟩ := hecho
    rw [hspeaks.desired _ hdesired.symm]
    exact (if_pos ⟨rfl, rfl⟩).symm
  · rw [wished_of_enabling, Bool.or_false]
    exact (if_neg hecho).symm

end Link

namespace Pairing

variable {β α σ : Type}

/-- The option states, and the option commands on their way. -/
def network (p : Pairing β α σ) (atClient atServer : State) : Network where
  a := p.server.link.caps.options
  b := p.client.options
  toA := negotiations (ahead atServer p.toServer)
  toB := negotiations (ahead atClient p.toClient)

structure Position (host : Host β α) (p : Pairing β α σ) (atClient atServer : State) : Prop where
  client : p.client.At atClient
  server : p.server.parsing.At atServer
  unfailed : p.client.writeFailed = false
  clientRead : p.clientRead ≤ p.server.link.wire.written.length
  serverRead : p.serverRead ≤ p.client.sent.length
  toClient : Whole atClient p.toClient
  toServer : Whole atServer p.toServer
  /-- The client has room for what it will be sent. -/
  short : ∀ t ∈ ahead atClient p.toClient, t.negotiation? = none → Remark false false t
  steady : Network.Steady ClientState.qAcceptCallback (p.server.link.wish host.application)
    (p.network atClient atServer)

namespace Position

variable {host : Host β α} {p : Pairing β α σ} {atClient atServer : State}

/-- The server acts, and perhaps reads. -/
theorem ofServer (h : p.Position host atClient atServer) {server : Conn β α} {serverRead : Nat}
    {atServer' : State} {tokens : List Token} (hat : server.parsing.At atServer')
    (hread : serverRead ≤ p.client.sent.length)
    (hwhole : Whole atServer' (p.client.sent.drop serverRead))
    (hwritten : server.link.wire.written =
      p.server.link.wire.written ++ tokens.flatMap Token.encode)
    (hwell : ∀ t ∈ tokens, t.WellFormed)
    (hshort : ∀ t ∈ tokens, t.negotiation? = none → Remark false false t)
    (hsteady : Network.Steady ClientState.qAcceptCallback (server.link.wish host.application)
      ⟨server.link.caps.options, p.client.options,
        negotiations (ahead atServer' (p.client.sent.drop serverRead)),
        negotiations (ahead atClient p.toClient) ++ negotiations tokens⟩) :
    Position host { p with server := server, serverRead := serverRead } atClient atServer' := by
  have hto : ({ p with server := server, serverRead := serverRead } : Pairing β α σ).toClient =
      p.toClient ++ tokens.flatMap Token.encode := by
    change server.link.wire.written.drop p.clientRead = _
    rw [hwritten, List.drop_append_of_le_length h.clientRead]
    rfl
  have hahead := h.toClient.ahead_append hwell
  refine ⟨h.client, hat, h.unfailed, ?_, hread, ?_, hwhole, ?_, ?_⟩
  · rw [hwritten, List.length_append]
    exact h.clientRead.trans (Nat.le_add_right _ _)
  · rw [hto]
    exact h.toClient.append hwell
  · rw [hto, hahead]
    exact fun t ht => (List.mem_append.mp ht).elim (h.short t) (hshort t)
  · rw [network, hto, hahead, TelnetGrammar.negotiations_append]
    exact hsteady

/-- The client acts, and perhaps reads. -/
theorem ofClient (h : p.Position host atClient atServer) {client : ClientState σ}
    {clientRead : Nat} {atClient' : State} {tokens : List Token} (hat : client.At atClient')
    (hunfailed : client.writeFailed = false)
    (hread : clientRead ≤ p.server.link.wire.written.length)
    (hwhole : Whole atClient' (p.server.link.wire.written.drop clientRead))
    (hshort : ∀ t ∈ ahead atClient' (p.server.link.wire.written.drop clientRead),
      t.negotiation? = none → Remark false false t)
    (hsent : client.sent = p.client.sent ++ tokens.flatMap Token.encode)
    (hwell : ∀ t ∈ tokens, t.WellFormed)
    (hsteady : Network.Steady ClientState.qAcceptCallback (p.server.link.wish host.application)
      ⟨p.server.link.caps.options, client.options,
        negotiations (ahead atServer p.toServer) ++ negotiations tokens,
        negotiations (ahead atClient' (p.server.link.wire.written.drop clientRead))⟩) :
    Position host { p with client := client, clientRead := clientRead } atClient' atServer := by
  have hto : ({ p with client := client, clientRead := clientRead } : Pairing β α σ).toServer =
      p.toServer ++ tokens.flatMap Token.encode := by
    change client.sent.drop p.serverRead = _
    rw [hsent, List.drop_append_of_le_length h.serverRead]
    rfl
  refine ⟨hat, h.server, hunfailed, hread, ?_, hwhole, ?_, hshort, ?_⟩
  · rw [hsent, List.length_append]
    exact h.serverRead.trans (Nat.le_add_right _ _)
  · rw [hto]
    exact h.toServer.append hwell
  · rw [network, hto, h.toServer.ahead_append hwell, TelnetGrammar.negotiations_append]
    exact hsteady

/-! ### Steps of the server -/

section Server

variable {server : Conn β α} {serverRead : Nat} {atServer' : State}

/-- The client refuses GMCP. -/
theorem no_gmcp (h : p.Position host atClient atServer) (hcoherent : p.server.link.caps.Coherent) :
    p.server.link.caps.terminal.gmcp = false ∧ p.server.link.mayGmcp = false := by
  have hoff : p.server.link.caps.enabled .local_ Telnet.Opt.gmcp = false :=
    h.steady.refused (d := .local_) (by decide)
  have hterminal : p.server.link.caps.terminal.gmcp = false :=
    (Conn.derivedFacts_of_coherent hcoherent).gmcp.trans hoff
  exact ⟨hterminal, by rw [Link.mayGmcp, hterminal, hoff]; rfl⟩

theorem serverTalks (h : p.Position host atClient atServer)
    (hcoherent : p.server.link.caps.Coherent)
    (htalks : p.server.link.Talks host.application server.link) (hopen : server.closed = false)
    (hat : server.parsing.At atServer') (hread : serverRead ≤ p.client.sent.length)
    (hwhole : Whole atServer' (p.client.sent.drop serverRead))
    (hsame : negotiations (ahead atServer' (p.client.sent.drop serverRead)) =
      negotiations (ahead atServer p.toServer)) :
    Position host { p with server := server, serverRead := serverRead } atClient atServer' := by
  obtain ⟨requests, hasks, hspeaks⟩ := htalks.requests
  obtain ⟨tokens, hwell, hwritten, hsent, hremarks⟩ := (hspeaks.writes hopen).tokens
  rw [(h.no_gmcp hcoherent).2] at hremarks
  refine h.ofServer hat hread hwhole hwritten hwell hremarks ?_
  have hsteady := h.steady.requests requests
  rw [Link.wish_of_speaks hasks hspeaks] at hsteady
  rw [hspeaks.options, hsame, hsent]
  exact hsteady

theorem serverHears (h : p.Position host atClient atServer)
    (hcoherent : p.server.link.caps.Coherent) {direction : TelnetQDirection} {sign : Bool}
    {option : UInt8}
    (hhears : Link.Hears host.application (signCommand direction sign) option p.server.link
      server.link)
    (hopen : server.closed = false) (hat : server.parsing.At atServer')
    (hread : serverRead ≤ p.client.sent.length)
    (hwhole : Whole atServer' (p.client.sent.drop serverRead))
    (hnext : negotiations (ahead atServer p.toServer) = (signCommand direction sign, option) ::
      negotiations (ahead atServer' (p.client.sent.drop serverRead))) :
    Position host { p with server := server, serverRead := serverRead } atClient atServer' := by
  obtain ⟨tokens, hwell, hwritten, hsent, hremarks⟩ := (hhears.writes hopen).tokens
  have hto : (p.network atClient atServer).toA =
      (signCommand direction.opposite.opposite sign, option) ::
        negotiations (ahead atServer' (p.client.sent.drop serverRead)) := by
    rw [TelnetQDirection.opposite_opposite]
    exact hnext
  have hwish : server.link.wish host.application = p.server.link.wish host.application := by
    funext d o
    rw [Link.wish, Link.wish, hhears.desired]
  have hsteady : Network.Steady ClientState.qAcceptCallback (server.link.wish host.application)
      ⟨server.link.caps.options, p.client.options,
        negotiations (ahead atServer' (p.client.sent.drop serverRead)),
        negotiations (ahead atClient p.toClient) ++ negotiations tokens⟩ := by
    have hheard := h.steady.hearA hto (Link.qAccept host.application p.server.link.caps)
    rw [TelnetQDirection.opposite_opposite] at hheard
    rw [hwish, hhears.options, hsent]
    exact hheard
  have hgmcp : server.link.caps.enabled .local_ Telnet.Opt.gmcp = false :=
    hsteady.refused (d := .local_) (by decide)
  have hmssp : server.link.caps.enabled .local_ Telnet.Opt.mssp = false :=
    hsteady.refused (d := .local_) (by decide)
  rw [(h.no_gmcp hcoherent).1, hgmcp, hmssp] at hremarks
  exact h.ofServer hat hread hwhole hwritten hwell hremarks hsteady

end Server

end Position

/-! ## Every step -/

section Step

variable {host : Host β α} {clientHost : ClientHost σ} {p : Pairing β α σ}
  {atClient atServer : State}

theorem drop_succ_eq {l rest : Bytes} {n : Nat} {b : UInt8} (h : l.drop n = b :: rest) :
    n + 1 ≤ l.length ∧ l.drop (n + 1) = rest := by
  have hlength := congrArg List.length h
  rw [List.length_drop, List.length_cons] at hlength
  refine ⟨by omega, ?_⟩
  rw [← List.drop_drop, h]
  rfl

/-- The reader of a stream takes a byte. -/
theorem reads_next {l rest : Bytes} {n : Nat} {b : UInt8} {s : State} (h : l.drop n = b :: rest)
    (hwhole : Whole s (l.drop n)) :
    n + 1 ≤ l.length ∧ Whole (TelnetGrammar.step s b).1 (l.drop (n + 1)) ∧
      ahead s (l.drop n) =
        (TelnetGrammar.step s b).2.toList ++ ahead (TelnetGrammar.step s b).1 (l.drop (n + 1)) := by
  obtain ⟨hread, hrest⟩ := drop_succ_eq h
  rw [h] at hwhole ⊢
  rw [hrest]
  exact ⟨hread, TelnetGrammar.whole_cons.mp hwhole, TelnetGrammar.ahead_cons s b rest⟩

/-- The server reads a byte and stays open. -/
theorem Position.serverReads (h : p.Position host atClient atServer)
    (hcoherent : p.server.link.caps.Coherent) (hbefore : p.server.closed = false) {byte : UInt8}
    {rest : Bytes} (hto : p.toServer = byte :: rest) (nowMs : UInt64)
    (hopen : (p.server.act host (.byte byte nowMs)).closed = false) :
    Position host { p with
      server := p.server.act host (.byte byte nowMs)
      serverRead := p.serverRead + 1 } atClient (TelnetGrammar.step atServer byte).1 := by
  obtain ⟨hread, hwhole, hahead⟩ := reads_next hto h.toServer
  change ahead atServer p.toServer = _ at hahead
  have hact : p.server.act host (.byte byte nowMs) = p.server.feedByte host byte nowMs := by
    rw [Conn.act, if_neg (by rw [hbefore]; decide)]
  have hat := Conn.at_feedByte host h.server byte nowMs (hact ▸ hopen)
  rw [← hact] at hat
  rcases Conn.act_byte_cases host h.server hbefore byte nowMs with
    ⟨direction, sign, hstep, hhears⟩ | ⟨hnone, htalks⟩
  · refine h.serverHears hcoherent hhears hopen hat hread hwhole ?_
    rw [hahead, TelnetGrammar.negotiations_append]
    simp [hstep, negotiations, Token.negotiation?, code_signVerb]
  · refine h.serverTalks hcoherent htalks hopen hat hread hwhole ?_
    rw [hahead, TelnetGrammar.negotiations_append, hnone, List.nil_append]

/-- The client reads a byte and goes on. -/
theorem Position.clientReads (h : p.Position host atClient atServer) {byte : UInt8}
    {rest : Bytes} (hto : p.toClient = byte :: rest)
    (hok : (p.client.processServerByte clientHost byte).1 = true) :
    Position host { p with
      client := (p.client.processServerByte clientHost byte).2
      clientRead := p.clientRead + 1 } (TelnetGrammar.step atClient byte).1 atServer := by
  obtain ⟨hread, hwhole, hahead⟩ := reads_next hto h.toClient
  obtain ⟨hat, hunfailed, hcases⟩ :=
    (ClientState.reads_processServerByte clientHost h.client h.unfailed byte).went hok
  change ahead atClient p.toClient = _ at hahead
  have hshort : ∀ t ∈ ahead (TelnetGrammar.step atClient byte).1
      (p.server.link.wire.written.drop (p.clientRead + 1)),
      t.negotiation? = none → Remark false false t :=
    fun t ht => h.short t (hahead ▸ List.mem_append_right _ ht)
  rcases hcases with ⟨direction, sign, hstep, hhears⟩ | ⟨hnone, hreplies⟩
  · obtain ⟨tokens, hwell, hsent, hcommands⟩ := hhears.said
    have hnext : negotiations (ahead atClient p.toClient) = (signCommand direction sign, byte) ::
        negotiations (ahead (TelnetGrammar.step atClient byte).1
          (p.server.link.wire.written.drop (p.clientRead + 1))) := by
      rw [hahead, TelnetGrammar.negotiations_append]
      simp [hstep, negotiations, Token.negotiation?, code_signVerb]
    refine h.ofClient hat hunfailed hread hwhole hshort hsent hwell ?_
    rw [hhears.options, hcommands]
    exact h.steady.hearB hnext
  · obtain ⟨tokens, hwell, hsent, hsilent⟩ := hreplies.talks.tokens
    have hsteady := h.steady
    rw [network, hahead, TelnetGrammar.negotiations_append, hnone, List.nil_append] at hsteady
    refine h.ofClient hat hunfailed hread hwhole hshort hsent hwell ?_
    rw [hreplies.options, hsilent, List.append_nil]
    exact hsteady

/-- The client has room for the byte. -/
theorem Position.room (h : p.Position host atClient atServer)
    {byte : UInt8} {rest : Bytes} (hto : p.toClient = byte :: rest) {o : UInt8} {payload : Bytes}
    (hstep : (TelnetGrammar.step atClient byte).1 = .sbData o payload) :
    payload.length ≤ ClientState.subDataMax := by
  have hwhole : Whole (TelnetGrammar.step atClient byte).1 rest :=
    TelnetGrammar.whole_cons.mp (hto ▸ h.toClient)
  rw [hstep] at hwhole
  obtain ⟨more, hmem⟩ := TelnetGrammar.exists_subnegotiation (.inl rfl) hwhole
  have hahead : Token.subnegotiation o (payload ++ more) ∈ ahead atClient p.toClient := by
    rw [hto, TelnetGrammar.ahead_cons, hstep]
    exact List.mem_append_right _ hmem
  have hmax : Link.newEnvironRequest.length ≤ ClientState.subDataMax := by decide +kernel
  cases h.short _ hahead rfl with
  | short _ hshort =>
    rw [List.length_append] at hshort
    omega
  | gmcp h => cases h
  | mssp h => cases h

/-- What is typed and a window size hold no option commands. -/
theorem Position.clientUtters (h : p.Position host atClient atServer)
    {result : Bool × ClientState σ} (hutters : ClientState.Utters clientHost p.client result)
    (hok : result.1 = true) :
    Position host { p with client := result.2 } atClient atServer := by
  have hvoice := hutters.voice hok
  have htalks := hutters.talks hok
  obtain ⟨tokens, hwell, hsent, hsilent⟩ := htalks.tokens
  refine h.ofClient (ClientState.at_of_voice hvoice h.client)
    ((congrArg ClientState.Voice.writeFailed hvoice).trans h.unfailed) h.clientRead h.toClient
    h.short hsent hwell ?_
  rw [htalks.options, hsilent, List.append_nil]
  exact h.steady

end Step

/-! ## Every run -/

/-- Everything a move can be. -/
inductive Moved (host : Host β α) (clientHost : ClientHost σ) (p : Pairing β α σ) :
    Pairing β α σ → Prop where
  | still : Moved host clientHost p p
  /-- The server acts without reading. -/
  | serverActs {action : Conn.Action} (hhears : p.server.hears action = none)
      (hparsing : (p.server.act host action).parsing = p.server.parsing) :
      Moved host clientHost p { p with server := p.server.act host action }
  | serverReads {byte : UInt8} {rest : Bytes} (hto : p.toServer = byte :: rest) (nowMs : UInt64) :
      Moved host clientHost p { p with
        server := p.server.act host (.byte byte nowMs)
        serverRead := p.serverRead + 1 }
  | clientReads (hrunning : p.status = .running) {byte : UInt8} {rest : Bytes}
      (hto : p.toClient = byte :: rest) :
      Moved host clientHost p ({ p with clientRead := p.clientRead + 1 }.clientCall clientHost
        (p.client.processServerByte clientHost byte))
  /-- The client sends something of its own. -/
  | clientSends (hrunning : p.status = .running) {result : Bool × ClientState σ}
      (hutters : ClientState.Utters clientHost p.client result) :
      Moved host clientHost p (p.clientCall clientHost result)
  | quit (hrunning : p.status = .running) :
      Moved host clientHost p { p with
        client := p.client.finish clientHost, status := .quit }

theorem moved_move (host : Host β α) (clientHost : ClientHost σ) (p : Pairing β α σ) (m : Move) :
    Moved host clientHost p (p.move host clientHost m) := by
  have hclient : ∀ {p' : Pairing β α σ},
      (p.status = .running → Moved host clientHost p p') →
      Moved host clientHost p (if p.status ≠ .running then p else p') := by
    intro p' hmoved
    split
    case isTrue => exact .still
    case isFalse hrunning => exact hmoved (not_not.mp hrunning)
  cases m with
  | poll => exact .serverActs rfl ((Conn.Steady.frame host).poll p.server).parsing
  | byteFlood => exact .serverActs rfl rfl
  | serverReads nowMs =>
    rw [move]
    split
    · exact .still
    · rename_i byte rest hto
      exact .serverReads hto nowMs
  | clientReads =>
    refine hclient fun hrunning => ?_
    split
    · exact .still
    · rename_i byte rest hto
      exact .clientReads hrunning hto
  | typed input hshort =>
    exact hclient fun hrunning =>
      .clientSends hrunning (ClientState.utters_sendTerminalInput _ hshort)
  | windowChanged =>
    exact hclient fun hrunning =>
      .clientSends hrunning (ClientState.remarks_sendWindowSize _).utters
  | quit => exact hclient .quit

structure Sound (host : Host β α) (p : Pairing β α σ) : Prop where
  server : (Conn.system host).Reachable p.server
  client : p.status = .running → (∃ s, p.client.At s) ∧ p.client.writeFailed = false
  position : p.live = true → ∃ atClient atServer, p.Position host atClient atServer

namespace Sound

variable {host : Host β α} {clientHost : ClientHost σ} {p : Pairing β α σ}

theorem of_live (h : p.live = true) : p.status = .running ∧ p.server.closed = false := by
  simpa [live] using h

/-- The server acts without reading. -/
theorem serverActs (h : p.Sound host) {action : Conn.Action}
    (hhears : p.server.hears action = none)
    (hparsing : (p.server.act host action).parsing = p.server.parsing) :
    Sound host { p with server := p.server.act host action } := by
  refine ⟨Conn.reachable_act h.server action, h.client, fun hlive => ?_⟩
  obtain ⟨hrunning, hopen⟩ := of_live hlive
  have htalks := Conn.talks_act host hhears
  obtain ⟨requests, -, hspeaks⟩ := htalks.requests
  have hbefore : p.server.closed = false :=
    Bool.eq_false_iff.mpr (mt hspeaks.closes (Bool.eq_false_iff.mp hopen))
  obtain ⟨atClient, atServer, hposition⟩ :=
    h.position (by rw [live, hbefore, decide_eq_true hrunning]; rfl)
  refine ⟨atClient, atServer, hposition.serverTalks (Conn.coherent_of_reachable h.server) htalks
    hopen ?_ hposition.serverRead hposition.toServer rfl⟩
  rw [hparsing]
  exact hposition.server

/-- A call of the client ends the loop or keeps everything in place. -/
theorem clientCalls (h : p.Sound host) {clientRead : Nat} {result : Bool × ClientState σ}
    (hclient : result.1 = true → (∃ s, result.2.At s) ∧ result.2.writeFailed = false)
    (hposition : result.1 = true → p.live = true → ∃ atClient atServer,
      Position host { p with client := result.2, clientRead := clientRead } atClient atServer) :
    Sound host ({ p with clientRead := clientRead }.clientCall clientHost result) := by
  unfold clientCall
  split
  case isTrue hok => exact ⟨h.server, fun _ => hclient hok, fun hlive => hposition hok hlive⟩
  case isFalse =>
    exact ⟨h.server, fun h => ClientStatus.noConfusion h, fun hlive => by cases (of_live hlive).1⟩

/-- A call that only sends. -/
theorem clientUtters (h : p.Sound host) (hrunning : p.status = .running)
    {result : Bool × ClientState σ} (hutters : ClientState.Utters clientHost p.client result) :
    Sound host (p.clientCall clientHost result) := by
  refine h.clientCalls (fun hok => ?_) fun hok hlive => ?_
  · obtain ⟨⟨s, hat⟩, hunfailed⟩ := h.client hrunning
    have hvoice := hutters.voice hok
    exact ⟨⟨s, ClientState.at_of_voice hvoice hat⟩,
      (congrArg ClientState.Voice.writeFailed hvoice).trans hunfailed⟩
  · obtain ⟨atClient, atServer, hposition⟩ := h.position hlive
    exact ⟨atClient, atServer, hposition.clientUtters hutters hok⟩

theorem moved (h : p.Sound host) {p' : Pairing β α σ} (hmoved : Moved host clientHost p p') :
    p'.Sound host := by
  cases hmoved with
  | still => exact h
  | serverActs hhears hparsing => exact h.serverActs hhears hparsing
  | @serverReads byte rest hto nowMs =>
    refine ⟨Conn.reachable_act h.server (.byte byte nowMs), h.client, fun hlive => ?_⟩
    obtain ⟨hrunning, hopen⟩ := of_live hlive
    have hbefore : p.server.closed = false := by
      refine Bool.eq_false_iff.mpr fun hclosed => Bool.eq_false_iff.mp hopen ?_
      rw [Conn.act, if_pos hclosed]
      exact hclosed
    obtain ⟨atClient, atServer, hposition⟩ :=
      h.position (by rw [live, hbefore, decide_eq_true hrunning]; rfl)
    exact ⟨atClient, _, hposition.serverReads (Conn.coherent_of_reachable h.server) hbefore hto
      nowMs hopen⟩
  | @clientReads hrunning byte rest hto =>
    refine h.clientCalls (fun hok => ?_) fun hok hlive => ?_
    · obtain ⟨⟨s, hat⟩, hunfailed⟩ := h.client hrunning
      have hread := (ClientState.reads_processServerByte clientHost hat hunfailed byte).went hok
      exact ⟨⟨_, hread.1⟩, hread.2.1⟩
    · obtain ⟨atClient, atServer, hposition⟩ := h.position hlive
      exact ⟨_, atServer, hposition.clientReads hto hok⟩
  | clientSends hrunning hutters => exact h.clientUtters hrunning hutters
  | quit =>
    exact ⟨h.server, fun h => ClientStatus.noConfusion h, fun hlive => by cases (of_live hlive).1⟩

theorem opened (host : Host β α) (backend : β) (app : α) (world : σ)
    (savedTerminal : Option Termios) :
    Sound host (Pairing.opened host backend app world savedTerminal) := by
  have hreachable : (Conn.system host).Reachable
      ((Conn.initial host backend app).act host .start) :=
    Conn.reachable_act (.init ⟨backend, app, rfl⟩) .start
  refine ⟨hreachable, fun _ => ⟨⟨.data, rfl⟩, rfl⟩, fun hlive => ⟨.data, .data, ?_⟩⟩
  have hspeaks := Conn.speaks_start host (c := Conn.initial host backend app) rfl
  have hopen : ((Conn.initial host backend app).start host).closed = false := (of_live hlive).2
  obtain ⟨tokens, hwell, hwritten, hsent, hremarks⟩ := (hspeaks.writes hopen).tokens
  have hto : (Pairing.opened host backend app world savedTerminal).toClient =
      tokens.flatMap Token.encode := hwritten
  have hparse := TelnetGrammar.parse_encodes hwell
  have hahead : ahead .data (Pairing.opened host backend app world savedTerminal).toClient =
      tokens := by
    rw [hto, ahead, hparse]
  refine ⟨rfl, ?_, rfl, Nat.zero_le _, Nat.zero_le _, ?_, rfl, ?_, ?_⟩
  · exact congrArg ParserFields.parser
      ((Conn.Steady.frame host).start (Conn.initial host backend app)).parsing
  · rw [hto, Whole, hparse]
  · rw [hahead]
    exact hremarks
  · have hsteady := (Network.steady_initial ClientState.qAcceptCallback).requests
      ((Link.operational host.application).map fun (d, o) => ⟨d, o, true⟩)
    rw [Link.wish_of_start rfl hspeaks] at hsteady
    rw [network, hahead, hsent]
    have hoptions : (Pairing.opened host backend app world savedTerminal).server.link.caps.options =
      _ := hspeaks.options
    rw [hoptions]
    exact hsteady

end Sound

section Runs

variable {host : Host β α} {clientHost : ClientHost σ} {p : Pairing β α σ}

theorem sound_of_reachable (hp : (system host clientHost).Reachable p) : p.Sound host := by
  refine hp.invariant (I := fun p => p.Sound host) ?_ ?_
  · rintro p ⟨backend, app, world, savedTerminal, rfl⟩
    exact .opened host backend app world savedTerminal
  · rintro m p p' - h rfl
    exact h.moved (moved_move host clientHost p m)

/-! ### Chunks

The ends read chunks of bytes; within a chunk they act byte by byte. -/

/-- The second state comes some moves after the first. -/
def Becomes (host : Host β α) (clientHost : ClientHost σ) (start p : Pairing β α σ) : Prop :=
  ∃ n, (system host clientHost).Run (fun _ => True) n start p

namespace Becomes

variable {start : Pairing β α σ}

theorem refl (p : Pairing β α σ) : Becomes host clientHost p p := ⟨0, .refl p⟩

theorem reachable (h : Becomes host clientHost start p)
    (hstart : (system host clientHost).Reachable start) :
    (system host clientHost).Reachable p := by
  obtain ⟨n, hrun⟩ := h
  exact hrun.reachable hstart

theorem move (h : Becomes host clientHost start p) (m : Move) :
    Becomes host clientHost start (p.move host clientHost m) := by
  obtain ⟨n, hrun⟩ := h
  exact ⟨n + 1, hrun.tail trivial (show (system host clientHost).step m p _ from rfl)⟩

/-- The server reads a chunk. -/
theorem feed {chunk rest : Bytes} (h : Becomes host clientHost start p) (nowMs : UInt64)
    (hto : p.toServer = chunk ++ rest) :
    Becomes host clientHost start { p with
      server := p.server.feedBytes host nowMs chunk
      serverRead := p.serverRead + chunk.length } := by
  induction chunk generalizing p with
  | nil => exact h
  | cons byte chunk ih =>
    have hmove : p.move host clientHost (.serverReads nowMs) = { p with
        server := p.server.act host (.byte byte nowMs), serverRead := p.serverRead + 1 } := by
      rw [Pairing.move, hto]
      rfl
    have hnext := h.move (.serverReads nowMs)
    rw [hmove] at hnext
    have hall := ih hnext (drop_succ_eq hto).2
    rwa [← Conn.feedBytes_cons, Nat.add_assoc, Nat.add_comm 1] at hall

/-- The client reads a chunk that it does not end on. -/
theorem process {chunk rest : Bytes} (h : Becomes host clientHost start p)
    (hrunning : p.status = .running) (hto : p.toClient = chunk ++ rest)
    (hok : (p.client.processServerBytes clientHost chunk).1 = true) :
    Becomes host clientHost start { p with
      client := (p.client.processServerBytes clientHost chunk).2
      clientRead := p.clientRead + chunk.length } := by
  induction chunk generalizing p with
  | nil => exact h
  | cons byte chunk ih =>
    rw [ClientState.processServerBytes, ClientState.andThen] at hok ⊢
    split at hok
    case isTrue hfirst =>
      have hmove : p.move host clientHost .clientReads = { p with
          client := (p.client.processServerByte clientHost byte).2
          clientRead := p.clientRead + 1 } := by
        rw [Pairing.move, if_neg (not_not.mpr hrunning), hto]
        exact if_pos hfirst
      have hnext := h.move .clientReads
      rw [hmove] at hnext
      have hall := ih hnext hrunning (drop_succ_eq hto).2 hok
      rwa [if_pos hfirst, List.length_cons, Nat.add_comm chunk.length, ← Nat.add_assoc]
    case isFalse hfirst => exact absurd hok hfirst

end Becomes

/-- A chunk is no more than its bytes. -/
theorem Position.processes (hreliable : clientHost.Reliable) {chunk rest : Bytes}
    {p : Pairing β α σ} {atClient atServer : State} (h : p.Position host atClient atServer)
    (hto : p.toClient = chunk ++ rest) :
    (p.client.processServerBytes clientHost chunk).1 = true := by
  induction chunk generalizing p atClient with
  | nil => rfl
  | cons byte chunk ih =>
    have hok : (p.client.processServerByte clientHost byte).1 = true :=
      (ClientState.reads_processServerByte clientHost h.client h.unfailed byte).ok hreliable
        fun o payload hstep => h.room hto hstep
    rw [ClientState.processServerBytes, ClientState.andThen, if_pos hok]
    exact ih (h.clientReads hto hok) (drop_succ_eq hto).2

/-- The client reads all there is, then the server does. -/
def exchange (host : Host β α) (clientHost : ClientHost σ) (nowMs : UInt64)
    (p : Pairing β α σ) : Pairing β α σ :=
  if p.live then
    let p := { p with
      client := (p.client.processServerBytes clientHost p.toClient).2
      clientRead := p.clientRead + p.toClient.length }
    { p with
      server := p.server.feedBytes host nowMs p.toServer
      serverRead := p.serverRead + p.toServer.length }
  else p

theorem Becomes.exchange (hreliable : clientHost.Reliable) {start : Pairing β α σ}
    (hstart : (system host clientHost).Reachable start) (h : Becomes host clientHost start p)
    (nowMs : UInt64) : Becomes host clientHost start (p.exchange host clientHost nowMs) := by
  unfold Pairing.exchange
  split
  case isTrue hlive =>
    obtain ⟨atClient, atServer, hposition⟩ :=
      (sound_of_reachable (h.reachable hstart)).position hlive
    have hto : p.toClient = p.toClient ++ [] := (List.append_nil _).symm
    have hread := h.process (Sound.of_live hlive).1 hto (hposition.processes hreliable hto)
    exact hread.feed nowMs (List.append_nil _).symm
  case isFalse => exact h

/-- Writes are taken whole, and there is a terminal, whose attributes are all that
changes. -/
def plainHost : ClientHost Termios where
  sslWrite world data := (data.length, world)
  terminalWrite world data := (data.length, world)
  windowSize world := (none, world)
  isatty _ := true
  tcgetattr world := some world
  tcsetattr _ attributes := (true, attributes)
  term := none

theorem reliable_plainHost : plainHost.Reliable :=
  ⟨fun _ _ h => mt List.eq_nil_of_length_eq_zero h, fun _ _ => rfl⟩

theorem attended_plainHost : plainHost.Attended :=
  ⟨fun _ _ => ⟨rfl, rfl⟩, fun _ _ => rfl, fun _ _ => rfl, fun _ => rfl⟩

abbrev echoing : Termios := ⟨true, 0⟩

abbrev newPlayer : Pairing Unit Unit Termios := opened .granting () () echoing (some echoing)

/-- All that is settled at the start has been settled, then a name is typed. -/
def namedPlayer : Pairing Unit Unit Termios :=
  let step := exchange (.granting : Host Unit Unit) plainHost 1
  let rested := step (step (step (step (step newPlayer))))
  step (step (rested.move .granting plainHost (.typed (ascii "Alice\n") (by decide))))

theorem reachable_newPlayer : (system .granting plainHost).Reachable newPlayer :=
  .init ⟨(), (), echoing, some echoing, rfl⟩

theorem becomes_namedPlayer : Becomes .granting plainHost newPlayer namedPlayer := by
  have hstep : ∀ {p : Pairing Unit Unit Termios}, Becomes .granting plainHost newPlayer p →
      Becomes .granting plainHost newPlayer (p.exchange .granting plainHost 1) :=
    fun h => h.exchange reliable_plainHost reachable_newPlayer 1
  exact hstep (hstep (.move (hstep (hstep (hstep (hstep (hstep (.refl newPlayer)))))) _))

theorem reachable_namedPlayer : (system .granting plainHost).Reachable namedPlayer :=
  becomes_namedPlayer.reachable reachable_newPlayer

/-- Everything was read, and the session reads a password. -/
theorem rests_namedPlayer : namedPlayer.live = true ∧ namedPlayer.quiet = true ∧
    namedPlayer.server.dialogue.login.isPassword = true := by
  decide +kernel

/-! ### The options -/

/-- Of what a session asks for, the client refuses MSSP and GMCP only. -/
theorem accepted_operational (hooks : Application α) (d : TelnetQDirection) (o : UInt8) :
    ((Link.operational hooks).contains (d, o) && ClientState.qAcceptCallback d.opposite o) =
      Link.alwaysAsked.contains (d, o) := by
  have haccepted : Link.alwaysAsked.all (fun (d, o) => (Link.operational hooks).contains (d, o) &&
      ClientState.qAcceptCallback d.opposite o) = true := by
    unfold Link.operational
    split <;> decide
  have hasked : (Link.operational hooks).all (fun (d, o) =>
      !ClientState.qAcceptCallback d.opposite o || Link.alwaysAsked.contains (d, o)) = true := by
    unfold Link.operational
    split <;> decide
  refine Bool.eq_iff_iff.mpr (Iff.trans ?_ List.contains_iff_mem.symm)
  refine ⟨fun hboth => ?_, fun hmem => List.all_eq_true.mp haccepted _ hmem⟩
  rw [Bool.and_eq_true, List.contains_iff_mem] at hboth
  have hnot := List.all_eq_true.mp hasked _ hboth.1
  simpa [hboth.2] using hnot

/-- What the server wishes for and the client accepts. -/
theorem wish_and_accept (hooks : Application α) (l : Link α) (d : TelnetQDirection) (o : UInt8) :
    (l.wish hooks d o && ClientState.qAcceptCallback d.opposite o) =
      (Link.alwaysAsked.contains (d, o) ||
        decide (d = .local_ ∧ o = Telnet.Opt.echo) && l.caps.echoDesired) := by
  unfold Link.wish
  split
  case isTrue hecho =>
    obtain ⟨rfl, rfl⟩ := hecho
    have haccept : ClientState.qAcceptCallback .remote Telnet.Opt.echo = true := by decide
    have hnot : Link.alwaysAsked.contains (.local_, Telnet.Opt.echo) = false := by decide
    rw [TelnetQDirection.opposite, haccept, hnot]
    simp
  case isFalse hecho =>
    rw [accepted_operational, decide_eq_false hecho, Bool.false_and, Bool.or_false]

theorem echoDesired_eq (h : p.Sound host) :
    p.server.link.caps.echoDesired = p.server.dialogue.login.isPassword :=
  (Conn.echoFits_of_reachable h.server).desired

theorem settled (h : p.Sound host) (hlive : p.live = true) (hquiet : p.quiet = true)
    (d : TelnetQDirection) (o : UInt8) :
    let on := Link.alwaysAsked.contains (d, o) ||
      decide (d = .local_ ∧ o = Telnet.Opt.echo) && p.server.dialogue.login.isPassword
    p.server.link.caps.enabled d o = on ∧ p.client.enabled d.opposite o = on := by
  obtain ⟨atClient, atServer, hposition⟩ := h.position hlive
  obtain ⟨hclient, hserver⟩ : p.toClient = [] ∧ p.toServer = [] := by simpa [quiet] using hquiet
  have hsettled := hposition.steady.settled
    (by rw [network, hserver]; rfl) (by rw [network, hclient]; rfl) d o
  rw [wish_and_accept, echoDesired_eq h] at hsettled
  exact hsettled

/-- Once everything that was written has been read, the two ends agree on every option:
the server's operational options are on where the client has them, the echo is on exactly
while a password is read, and nothing else is. -/
theorem agreed_options (hp : (system host clientHost).Reachable p) (hlive : p.live = true)
    (hquiet : p.quiet = true) (d : TelnetQDirection) (o : UInt8) :
    p.server.link.caps.enabled d o = (Link.alwaysAsked.contains (d, o) ||
        decide (d = .local_ ∧ o = Telnet.Opt.echo) && p.server.dialogue.login.isPassword) ∧
      p.client.enabled d.opposite o = p.server.link.caps.enabled d o := by
  obtain ⟨hserver, hclient⟩ := settled (sound_of_reachable hp) hlive hquiet d o
  exact ⟨hserver, hclient.trans hserver.symm⟩

theorem agreed_options_namedPlayer :
    namedPlayer.live = true ∧ namedPlayer.quiet = true ∧
      namedPlayer.server.link.caps.enabled .local_ Telnet.Opt.echo = true ∧
      namedPlayer.client.enabled .remote Telnet.Opt.echo = true := by
  obtain ⟨hlive, hquiet, hpassword⟩ := rests_namedPlayer
  obtain ⟨hon, hagreed⟩ := agreed_options reachable_namedPlayer hlive hquiet .local_ Telnet.Opt.echo
  rw [hpassword] at hon
  exact ⟨hlive, hquiet, hon, hagreed.trans hon⟩

/-! ### The echo of the terminal -/

/-- The echo fits the option while the client runs, and the terminal is as it was when it
has ended. -/
structure EchoKept (clientHost : ClientHost σ) (saved : Termios) (p : Pairing β α σ) : Prop where
  running : p.status = .running → p.client.EchoFits clientHost saved
  ended : p.status ≠ .running → clientHost.tcgetattr p.client.world = some saved

namespace EchoKept

variable {saved : Termios}

theorem clientCall (hattended : clientHost.Attended) (hrunning : p.status = .running)
    {result : Bool × ClientState σ} (hsaved : result.2.savedTerminal = some saved)
    (hfits : result.1 = true → result.2.EchoFits clientHost saved) :
    (p.clientCall clientHost result).EchoKept clientHost saved := by
  unfold Pairing.clientCall
  split
  case isTrue hok => exact ⟨fun _ => hfits hok, fun hended => absurd hrunning hended⟩
  case isFalse =>
    exact ⟨fun h => ClientStatus.noConfusion h,
      fun _ => ClientState.tcgetattr_finish hattended hsaved⟩

theorem move (hattended : clientHost.Attended) (hsound : p.Sound host)
    (h : p.EchoKept clientHost saved) (m : Move) :
    (p.move host clientHost m).EchoKept clientHost saved := by
  have hmoved := moved_move host clientHost p m
  generalize p.move host clientHost m = p' at hmoved ⊢
  cases hmoved with
  | still => exact h
  | serverActs | serverReads => exact ⟨h.running, h.ended⟩
  | @clientReads hrunning byte rest hto =>
    have hfits := h.running hrunning
    obtain ⟨⟨s, hat⟩, hunfailed⟩ := hsound.client hrunning
    have hreads := ClientState.reads_processServerByte clientHost hat hunfailed byte
    refine clientCall (p := { p with clientRead := p.clientRead + 1 }) hattended hrunning
      (hreads.saved.trans hfits.saved) fun hok => ?_
    obtain ⟨-, -, ⟨direction, sign, -, hhears⟩ | ⟨-, hreplies⟩⟩ := hreads.went hok
    · exact hhears.echo hattended saved hfits
    · exact hreplies.talks.echoFits hattended hfits
  | clientSends hrunning hutters =>
    have hfits := h.running hrunning
    exact clientCall hattended hrunning (hutters.terminal.saved.trans hfits.saved) fun hok =>
      (hutters.talks hok).echoFits hattended hfits
  | quit hrunning =>
    exact ⟨fun h => ClientStatus.noConfusion h,
      fun _ => ClientState.tcgetattr_finish hattended (h.running hrunning).saved⟩

theorem run (hattended : clientHost.Attended) {n : Nat} {start : Pairing β α σ}
    (hrun : (system host clientHost).Run (fun _ => True) n start p)
    (hstart : (system host clientHost).Reachable start) (h : start.EchoKept clientHost saved) :
    p.EchoKept clientHost saved := by
  induction hrun with
  | refl => exact h
  | @tail n m start p p' hrun _ hstep ih =>
    obtain rfl : p' = p.move host clientHost m := hstep
    exact (ih hstart h).move hattended (sound_of_reachable (hrun.reachable hstart)) m

end EchoKept

theorem tcgetattr_of_prepareTerminal {world : σ} {saved : Termios}
    (h : clientHost.prepareTerminal world = some (some saved)) :
    clientHost.tcgetattr world = some saved := by
  unfold ClientHost.prepareTerminal at h
  split at h
  · cases h
  · simpa using h

/-- The client has saved the attributes of its terminal, which can be set and which nothing
else sets. Once everything that was written has been read, the terminal does not echo while
a password is asked for, and if it echoed at the start it does so at any other time; its
other attributes are those of the start. When the client has ended, however it did, they all
are. -/
theorem password_typing_hidden (hattended : clientHost.Attended) {backend : β} {app : α}
    {world : σ} {saved : Termios} (hprepared : clientHost.prepareTerminal world = some (some saved))
    {n : Nat} (hrun : (system host clientHost).Run (fun _ => True) n
      (opened host backend app world (some saved)) p) :
    (p.live = true → p.quiet = true → ∃ current,
      clientHost.tcgetattr p.client.world = some current ∧ current.others = saved.others ∧
      (p.server.dialogue.login.isPassword = true → current.echo = false) ∧
      (saved.echo = true → current.echo = !p.server.dialogue.login.isPassword)) ∧
    (p.status ≠ .running → clientHost.tcgetattr p.client.world = some saved) := by
  have hstart : (system host clientHost).Reachable (opened host backend app world (some saved)) :=
    .init ⟨backend, app, world, some saved, rfl⟩
  have hread := tcgetattr_of_prepareTerminal hprepared
  have hkept : p.EchoKept clientHost saved := by
    refine .run hattended hrun hstart ⟨fun _ => ⟨⟨rfl, saved, hread, rfl, ?_, id⟩, rfl⟩, ?_⟩
    · exact fun h => Bool.noConfusion h
    · exact fun hended => absurd rfl hended
  refine ⟨fun hlive hquiet => ?_, hkept.ended⟩
  have hecho : p.client.enabled .remote Telnet.Opt.echo = p.server.dialogue.login.isPassword :=
    (settled (sound_of_reachable (hrun.reachable hstart)) hlive hquiet .local_ Telnet.Opt.echo).2
  have hfits := hkept.running (Sound.of_live hlive).1
  obtain ⟨current, hcurrent, hothers, hhidden, hshown⟩ := hfits.terminal
  rw [hfits.fits, hecho] at hhidden hshown
  exact ⟨current, hcurrent, hothers, fun hpassword => hhidden (by rw [hpassword]; rfl), hshown⟩

theorem password_typing_hidden_namedPlayer :
    plainHost.prepareTerminal echoing = some (some echoing) ∧
      namedPlayer.live = true ∧ namedPlayer.quiet = true ∧
      ∃ current, plainHost.tcgetattr namedPlayer.client.world = some current ∧
        current.others = 0 ∧ current.echo = false := by
  obtain ⟨hlive, hquiet, hpassword⟩ := rests_namedPlayer
  obtain ⟨n, hrun⟩ := becomes_namedPlayer
  obtain ⟨htyping, -⟩ := password_typing_hidden attended_plainHost rfl hrun
  obtain ⟨current, hcurrent, hothers, hhidden, -⟩ := htyping hlive hquiet
  exact ⟨rfl, hlive, hquiet, current, hcurrent, hothers, hhidden hpassword⟩

/-! ### The client goes on -/

/-- A call that goes through if the server is open. -/
theorem closed_clientCall (hrunning : p.status = .running) {result : Bool × ClientState σ}
    (hok : p.live = true → result.1 = true)
    (hfailed : (p.clientCall clientHost result).status = .failed) : p.server.closed = true := by
  cases hclosed : p.server.closed with
  | true => rfl
  | false =>
    have hlive : p.live = true := by
      rw [live, decide_eq_true hrunning, hclosed]
      rfl
    rw [clientCall, if_pos (hok hlive)] at hfailed
    cases hrunning.symm.trans hfailed

theorem server_clientCall (p : Pairing β α σ) (result : Bool × ClientState σ) :
    (p.clientCall clientHost result).server = p.server := by
  unfold clientCall
  split <;> rfl

/-- With connections and a terminal that take their bytes, the client never ends on what
an open server sends: not on a payload that is too long, nor on anything else. -/
theorem client_never_fails (hreliable : clientHost.Reliable)
    (hp : (system host clientHost).Reachable p) (hopen : p.server.closed = false) :
    p.status ≠ .failed := by
  suffices h : p.status = .failed → p.server.closed = true from
    fun hfailed => Bool.false_ne_true (hopen.symm.trans (h hfailed))
  clear hopen
  refine hp.invariant (I := fun p => p.status = .failed → p.server.closed = true) ?_ ?_
  · rintro p ⟨backend, app, world, savedTerminal, rfl⟩
    exact fun h => ClientStatus.noConfusion h
  · rintro m p p' hreachable h rfl
    have hmoved := moved_move host clientHost p m
    generalize p.move host clientHost m = p' at hmoved ⊢
    intro hfailed
    cases hmoved with
    | still => exact h hfailed
    | @serverActs action hhears =>
      obtain ⟨requests, -, hspeaks⟩ := (Conn.talks_act host hhears).requests
      exact hspeaks.closes (h hfailed)
    | serverReads =>
      have hclosed := h hfailed
      rw [Conn.act, if_pos hclosed]
      exact hclosed
    | @clientReads hrunning byte rest hto =>
      rw [server_clientCall]
      refine closed_clientCall (p := { p with clientRead := p.clientRead + 1 }) hrunning
        (fun hlive => ?_) hfailed
      obtain ⟨atClient, atServer, hposition⟩ := (sound_of_reachable hreachable).position hlive
      exact (ClientState.reads_processServerByte clientHost hposition.client hposition.unfailed
        byte).ok hreliable fun o payload hstep => hposition.room hto hstep
    | clientSends hrunning hutters =>
      rw [server_clientCall]
      exact closed_clientCall hrunning (fun _ => hutters.ok hreliable) hfailed
    | quit => cases hfailed

theorem client_never_fails_namedPlayer :
    namedPlayer.server.closed = false ∧ namedPlayer.status ≠ .failed := by
  have hopen := (Sound.of_live rests_namedPlayer.1).2
  exact ⟨hopen, client_never_fails reliable_plainHost reachable_namedPlayer hopen⟩

end Runs

end Pairing
