import Runvane.Events.Dispatch
import Runvane.Library.HttpFraming

/-!
# The requests of the HTTP sink

`HttpSink` of `events/dispatch.rs`: the sink that posts a delivery to a plain `http` URL over a
connection of its own. The text of the request is put together from the host and the path of the
URL, the headers of the hook and the payload. The URL parser, the network and the decoding of the
answer are libraries of the code and stay parameters; of the first, `UrlLaws` states what its
documentation says about the URLs it accepts.

The headers of a hook go into the text as they are. Validation does not look at them, and the peer
reads the request that was meant exactly if no header means anything to the framing
(`framed_request_iff`).
-/

set_option autoImplicit false

namespace Runvane.Events

open Domain Library Library.Http

/-! ### The sink -/

structure RequestUrl extends ParsedUrl where
  port : Option ℕ
  path : String

abbrev RequestUrlParser := String → Except String RequestUrl

def RequestUrlParser.forValidation (parse : RequestUrlParser) : UrlParser :=
  fun url ↦ (parse url).map RequestUrl.toParsedUrl

/-- A connection: whether the timeouts can be set, whether bytes are written in full, and the bytes
of the answer up to a limit. -/
structure TcpStream where
  setReadTimeout : ℕ → Except String Unit
  setWriteTimeout : ℕ → Except String Unit
  writeAll : List UInt8 → Except String Unit
  readToEnd : ℕ → Except String (List UInt8)

/-- What the sink uses of the network and of the text library. -/
structure SinkLibrary where
  connect : String → ℕ → Except String TcpStream
  fromUtf8Lossy : List UInt8 → String

inductive SinkError
  | unsupportedUrl (url : String)
  | invalidUrl (url e : String)
  | unsupportedScheme (scheme : String)
  | noHost (url : String)
  | cannotConnect (host : String) (port : ℕ) (e : String)
  | timeout (e : String)
  | write (host : String) (port : ℕ) (e : String)
  | read (host : String) (port : ℕ) (e : String)
  | responded (host : String) (port : ℕ) (statusLine : String)

def SinkError.message (debugText : String → String) : SinkError → String
  | unsupportedUrl url => s!"unsupported webhook url {url}"
  | invalidUrl url e => s!"invalid webhook url {url}: {e}"
  | unsupportedScheme scheme => "unsupported webhook scheme " ++ debugText scheme
  | noHost url => s!"webhook url {url} has no host"
  | cannotConnect host port e => s!"cannot connect to {host}:{port}: {e}"
  | timeout e => e
  | write host port e => s!"write to {host}:{port} failed: {e}"
  | read host port e => s!"read from {host}:{port} failed: {e}"
  | responded host port statusLine => s!"webhook {host}:{port} responded " ++ debugText statusLine

structure HttpSink where
  timeout : ℕ := 3 * 10 ^ 9

/-- What came of a delivery: the bytes that were written, and the result. -/
structure Exchange where
  written : List UInt8
  result : Except SinkError Unit

namespace HttpSink

/-- Whether the URL is one that this sink can speak to. -/
def supports (url : String) : Bool := "http://".toList.isPrefixOf url.toList

def requestText (host path : String) (delivery : Delivery) : String :=
  let request := s!"POST {path} HTTP/1.1\r\n"
  let request := request ++ s!"Host: {host}\r\n"
  let request := request ++ "User-Agent: runvane-events/1\r\n"
  let request := request ++ "Content-Type: application/json\r\n"
  let request := request ++ "Accept: application/json\r\n"
  let request := delivery.headers.foldl (fun request (k, v) ↦ request ++ s!"{k}: {v}\r\n") request
  let request := request ++ s!"Content-Length: {delivery.bodyJson.utf8ByteSize}\r\n"
  request ++ "Connection: close\r\n\r\n"

/-- The first line of a text. A carriage return belongs to the end of a line if a line feed follows.
-/
def firstLine (text : List Char) : List Char :=
  let line := text.takeWhile (· ≠ '\n')
  if line.length < text.length ∧ line.getLast? = some '\r' then line.dropLast else line

/-- A connection for a delivery, with what was read of the URL. -/
structure Opened where
  stream : TcpStream
  host : String
  port : ℕ
  path : String

/-- Reads the URL and connects to its host. -/
def openStream (sink : HttpSink) (parse : RequestUrlParser) (lib : SinkLibrary)
    (delivery : Delivery) : Except SinkError Opened :=
  match parse delivery.url with
  | .error e => .error (.invalidUrl delivery.url e)
  | .ok url =>
    if url.scheme ≠ "http" then .error (.unsupportedScheme url.scheme)
    else
      match url.hostStr with
      | none => .error (.noHost delivery.url)
      | some host => do
        let port := url.port.getD 80
        let path := if url.path.isEmpty then "/" else url.path
        let stream ← (lib.connect host port).mapError (.cannotConnect host port)
        (stream.setReadTimeout sink.timeout).mapError .timeout
        (stream.setWriteTimeout sink.timeout).mapError .timeout
        .ok ⟨stream, host, port, path⟩

/-- The answer counts by its status line. -/
def readStatus (lib : SinkLibrary) (opened : Opened) : Except SinkError Unit := do
  let response ← (opened.stream.readToEnd (4 * 1024)).mapError (.read opened.host opened.port)
  let statusLine := firstLine (lib.fromUtf8Lossy response).toList
  if [' ', '2'] <:+: statusLine ∨ [' ', '3'] <:+: statusLine then .ok ()
  else .error (.responded opened.host opened.port (String.ofList statusLine))

/-- Posts the delivery: the text of the request, then the body, then the status of the answer. -/
def request (sink : HttpSink) (parse : RequestUrlParser) (lib : SinkLibrary)
    (delivery : Delivery) : Exchange :=
  match sink.openStream parse lib delivery with
  | .error e => ⟨[], .error e⟩
  | .ok opened =>
    let head := bytesOf (requestText opened.host opened.path delivery)
    match opened.stream.writeAll head with
    | .error e => ⟨[], .error (.write opened.host opened.port e)⟩
    | .ok () =>
      match opened.stream.writeAll (bytesOf delivery.bodyJson) with
      | .error e => ⟨head, .error (.write opened.host opened.port e)⟩
      | .ok () => ⟨head ++ bytesOf delivery.bodyJson, readStatus lib opened⟩

/-- Posts the delivery if the sink can speak to its URL. -/
def deliver (sink : HttpSink) (parse : RequestUrlParser) (lib : SinkLibrary)
    (delivery : Delivery) : Exchange :=
  if !supports delivery.url then ⟨[], .error (.unsupportedUrl delivery.url)⟩
  else sink.request parse lib delivery

end HttpSink

/-! ### What is assumed of the libraries -/

/-- The texts of printable ASCII without blanks. -/
def Graphic (text : String) : Prop := ∀ c ∈ text.toList, 32 < c.toNat ∧ c.toNat < 127

/-- What the URL library documents of the URLs it accepts: the scheme of a URL is what it starts
with, the host of a web URL is a domain in ASCII or an address, and everything else in its path is
percent-encoded. -/
structure UrlLaws (parse : RequestUrlParser) : Prop where
  scheme : ∀ {url parsed}, parse url = .ok parsed → HttpSink.supports url → parsed.scheme = "http"
  host : ∀ {url parsed host}, parse url = .ok parsed → parsed.scheme = "http" →
    parsed.hostStr = some host → Graphic host
  path : ∀ {url parsed}, parse url = .ok parsed → parsed.scheme = "http" → Graphic parsed.path

instance : DecidablePred Graphic :=
  fun text ↦ List.decidableBAll (fun c : Char ↦ 32 < c.toNat ∧ c.toNat < 127) text.toList

/-- The peer is up: it takes the connection and all that is written. -/
def SinkLibrary.Up (lib : SinkLibrary) : Prop :=
  ∀ host port, ∃ stream, lib.connect host port = .ok stream ∧
    (∀ timeout, stream.setReadTimeout timeout = .ok ()) ∧
    (∀ timeout, stream.setWriteTimeout timeout = .ok ()) ∧
    ∀ bytes, stream.writeAll bytes = .ok ()

/-! ### The request that is meant -/

def headerBytes (header : String × String) : List UInt8 × List UInt8 :=
  (bytesOf header.1, bytesOf header.2)

/-- The fixed headers in front of those of the hook. -/
def fixedHeaders (host : String) : List (String × String) :=
  [("Host", host), ("User-Agent", "runvane-events/1"), ("Content-Type", "application/json"),
    ("Accept", "application/json")]

/-- The request for a hook: the fixed lines, the headers of the hook and the payload. -/
def postRequest (host path : String) (headers : List (String × String)) (body : String) :
    Request where
  method := bytesOf "POST"
  target := bytesOf path
  version := bytesOf "HTTP/1.1"
  fields :=
    (fixedHeaders host ++ headers ++
      [("Content-Length", toString body.utf8ByteSize), ("Connection", "close")]).map headerBytes
  body := bytesOf body

/-- A header that leaves the framing alone: it is inert, and if it gives a length it is that of the
payload. -/
structure Harmless (body : String) (header : String × String) : Prop where
  inert : Inert (headerBytes header)
  length : isLength (headerBytes header) → readNumber (bytesOf header.2) = some body.utf8ByteSize

/-! ### The bytes of graphic texts -/

theorem bounds_of_graphic {text : String} (h : Graphic text) :
    ∀ b ∈ bytesOf text, 32 < b.toNat ∧ b.toNat < 127 := by
  rw [bytesOf_of_ascii fun c hc ↦ (h c hc).2.trans (by decide)]
  refine List.forall_mem_map.mpr fun c hc ↦ ?_
  have hbyte : c.toNat.toUInt8.toNat = c.toNat :=
    UInt8.toNat_ofNat_of_lt' ((h c hc).2.trans (by decide))
  rw [hbyte]
  exact h c hc

theorem notMem_of_graphic {text : String} (h : Graphic text) {b : UInt8} (hb : b.toNat ≤ 32) :
    b ∉ bytesOf text :=
  fun hmem ↦ absurd (bounds_of_graphic h b hmem).1 (Nat.not_lt.mpr hb)

theorem graphic_toString (n : ℕ) : Graphic (toString n) := by
  intro c hc
  have hdigits : (toString n).toList = Nat.toDigits 10 n := Nat.toList_repr
  rw [hdigits] at hc
  have hdigit := Nat.isDigit_of_mem_toDigits (by decide) (by decide) hc
  have hbounds : 48 ≤ c.toNat ∧ c.toNat ≤ 57 := by
    simpa [Char.isDigit, UInt32.le_iff_toNat_le] using hdigit
  omega

theorem inert_of_graphic {name value : String} (hname : Graphic name)
    (hcolon : 58 ∉ bytesOf name) (hvalue : Graphic value) : Inert (headerBytes (name, value)) where
  name := noCrlf_of_notMem (notMem_of_graphic hname (by decide))
  value := noCrlf_of_notMem (notMem_of_graphic hvalue (by decide))
  colon := hcolon
  trimmed := by
    refine trim_of_forall fun b hb ↦ ?_
    have hbounds := bounds_of_graphic hvalue b hb
    simp only [isBlank, Bool.or_eq_false_iff, decide_eq_false_iff_not]
    constructor <;> rintro rfl <;> revert hbounds <;> decide

/-! ### The bytes that are written -/

def headerLine (header : String × String) : String := s!"{header.1}: {header.2}\r\n"

theorem bytesOf_headerLine (header : String × String) :
    bytesOf (headerLine header) = writeField (headerBytes header) ++ crlf := by
  have hcolon : bytesOf ": " = [58, 32] := by decide
  have hend : bytesOf "\r\n" = crlf := by decide
  change bytesOf (header.1 ++ ": " ++ header.2 ++ "\r\n") = _
  simp [bytesOf_append, hcolon, hend, writeField, headerBytes]

theorem bytesOf_foldl_headerLine (headers : List (String × String)) (text : String) :
    bytesOf (headers.foldl (fun request header ↦ request ++ headerLine header) text) =
      bytesOf text ++ writeLines ((headers.map headerBytes).map writeField) := by
  induction headers generalizing text with
  | nil => exact (List.append_nil _).symm
  | cons header headers ih =>
    rw [List.foldl_cons, ih, bytesOf_append, bytesOf_headerLine]
    simp [writeLines]

theorem bytesOf_requestLine (host path : String) (headers : List (String × String))
    (body : String) :
    bytesOf s!"POST {path} HTTP/1.1\r\n" = (postRequest host path headers body).line ++ crlf := by
  have hstart : bytesOf "POST " = bytesOf "POST" ++ [32] := by decide
  have hend : bytesOf " HTTP/1.1\r\n" = 32 :: bytesOf "HTTP/1.1" ++ crlf := by decide
  change bytesOf ("POST " ++ path ++ " HTTP/1.1\r\n") = _
  simp [bytesOf_append, hstart, hend, postRequest, Request.line, List.intercalate]

/-- The text line by line. -/
theorem requestText_eq (host path : String) (delivery : Delivery) :
    HttpSink.requestText host path delivery =
      delivery.headers.foldl (fun request header ↦ request ++ headerLine header)
          (s!"POST {path} HTTP/1.1\r\n" ++ headerLine ("Host", host) ++
            headerLine ("User-Agent", "runvane-events/1") ++
            headerLine ("Content-Type", "application/json") ++
            headerLine ("Accept", "application/json")) ++
        headerLine ("Content-Length", toString delivery.bodyJson.utf8ByteSize) ++
        (headerLine ("Connection", "close") ++ "\r\n") := by
  have hagent : headerLine ("User-Agent", "runvane-events/1") =
      "User-Agent: runvane-events/1\r\n" := by decide
  have htype : headerLine ("Content-Type", "application/json") =
      "Content-Type: application/json\r\n" := by decide
  have haccept : headerLine ("Accept", "application/json") =
      "Accept: application/json\r\n" := by decide
  have hclose : headerLine ("Connection", "close") ++ "\r\n" =
      "Connection: close\r\n\r\n" := by decide
  rw [hagent, htype, haccept, hclose]
  rfl

theorem bytesOf_requestText (host path : String) (delivery : Delivery) :
    bytesOf (HttpSink.requestText host path delivery) ++ bytesOf delivery.bodyJson =
      writeRequest (postRequest host path delivery.headers delivery.bodyJson) := by
  have hend : bytesOf "\r\n" = crlf := by decide
  have hline := bytesOf_requestLine host path delivery.headers delivery.bodyJson
  have hfields : (postRequest host path delivery.headers delivery.bodyJson).fields =
      (fixedHeaders host ++ delivery.headers ++
        [("Content-Length", toString delivery.bodyJson.utf8ByteSize),
          ("Connection", "close")]).map headerBytes := rfl
  have hbody : (postRequest host path delivery.headers delivery.bodyJson).body =
      bytesOf delivery.bodyJson := rfl
  rw [requestText_eq]
  generalize s!"POST {path} HTTP/1.1\r\n" = line at hline ⊢
  simp [bytesOf_append, bytesOf_foldl_headerLine, bytesOf_headerLine, hline, hend, hfields, hbody,
    fixedHeaders, writeRequest, writeLines]

/-! ### What the peer reads -/

theorem forall_mem_fields {host path : String} {headers : List (String × String)} {body : String}
    {P : List UInt8 × List UInt8 → Prop} :
    (∀ field ∈ (postRequest host path headers body).fields, P field) ↔
      (∀ header ∈ fixedHeaders host, P (headerBytes header)) ∧
      (∀ header ∈ headers, P (headerBytes header)) ∧
      P (headerBytes ("Content-Length", toString body.utf8ByteSize)) ∧
      P (headerBytes ("Connection", "close")) := by
  rw [postRequest, List.forall_mem_map, List.forall_mem_append, List.forall_mem_append, and_assoc]
  simp

theorem isLength_headerBytes (name value : String) :
    isLength (headerBytes (name, value)) =
      decide ((bytesOf name).map lower = bytesOf "content-length") := rfl

theorem harmless_of_graphic {name value : String} (hname : Graphic name)
    (hcolon : 58 ∉ bytesOf name) (hother : (bytesOf name).map lower ≠ bytesOf "content-length")
    (hvalue : Graphic value) (body : String) : Harmless body (name, value) where
  inert := inert_of_graphic hname hcolon hvalue
  length := fun hlength ↦ by
    rw [isLength_headerBytes] at hlength
    exact absurd (of_decide_eq_true hlength) hother

/-- The headers of the sink's own leave the framing alone. -/
theorem harmless_own {host : String} (hhost : Graphic host) (body : String) :
    (∀ header ∈ fixedHeaders host, Harmless body header) ∧
      Harmless body ("Content-Length", toString body.utf8ByteSize) ∧
      Harmless body ("Connection", "close") := by
  refine ⟨?_, ⟨?_, fun _ ↦ readNumber_toString _⟩, ?_⟩
  · simp only [fixedHeaders, List.forall_mem_cons, List.not_mem_nil, false_imp_iff, implies_true,
      and_true]
    refine ⟨?_, ?_, ?_, ?_⟩
    · exact harmless_of_graphic (by decide) (by decide) (by decide) hhost _
    all_goals
      exact harmless_of_graphic (by decide) (by decide) (by decide)
        (by decide) _
  · exact inert_of_graphic (by decide) (by decide) (graphic_toString _)
  · exact harmless_of_graphic (by decide) (by decide) (by decide)
      (by decide) _

/-- The request is framed if the headers of the hook leave the framing alone. -/
theorem framed_postRequest_iff {host path : String} (hhost : Graphic host)
    (headers : List (String × String)) (body : String) :
    (postRequest host path headers body).Framed ↔ ∀ header ∈ headers, Harmless body header := by
  obtain ⟨hfixed, hlength, hclose⟩ := harmless_own hhost body
  have hlengthField : isLength (headerBytes ("Content-Length", toString body.utf8ByteSize)) := by
    rw [isLength_headerBytes]
    decide
  have hexists : ∃ field ∈ (postRequest host path headers body).fields, isLength field :=
    ⟨_, List.mem_map_of_mem (by simp), hlengthField⟩
  have hcount : (postRequest host path headers body).body.length = body.utf8ByteSize := rfl
  constructor
  · rintro ⟨hinert, hlength⟩ header hheader
    rw [bodyLength_eq_some_iff hexists, forall_mem_fields] at hlength
    exact ⟨(forall_mem_fields.mp hinert).2.1 header hheader, hlength.2.1 header hheader⟩
  · intro hheaders
    refine ⟨forall_mem_fields.mpr ⟨fun header hheader ↦ (hfixed header hheader).inert,
      fun header hheader ↦ (hheaders header hheader).inert, hlength.inert, hclose.inert⟩, ?_⟩
    rw [bodyLength_eq_some_iff hexists, forall_mem_fields]
    exact ⟨fun header hheader ↦ (hfixed header hheader).length,
      fun header hheader ↦ (hheaders header hheader).length, hlength.length, hclose.length⟩

/-- The request is read back if its headers leave the framing alone. -/
theorem readRequest_postRequest_iff {host path : String} (hhost : Graphic host)
    (hpath : Graphic path) (headers : List (String × String)) (body : String) :
    readRequest (writeRequest (postRequest host path headers body)) =
        some (postRequest host path headers body, []) ↔
      ∀ header ∈ headers, Harmless body header := by
  have hparts : ∀ part ∈ [bytesOf "POST", bytesOf path, bytesOf "HTTP/1.1"], 32 ∉ part := by
    simp only [List.forall_mem_cons, List.not_mem_nil, false_imp_iff, implies_true, and_true]
    exact ⟨by decide, notMem_of_graphic hpath le_rfl, by decide⟩
  have hline : NoCrlf (postRequest host path headers body).line := by
    have hsplit : (postRequest host path headers body).line =
        bytesOf "POST" ++ 32 :: (bytesOf path ++ 32 :: bytesOf "HTTP/1.1") := by
      simp [postRequest, Request.line, List.intercalate]
    rw [hsplit, noCrlf_append_cons (by decide) (by decide),
      noCrlf_append_cons (by decide) (by decide)]
    exact ⟨noCrlf_of_notMem (by decide),
      noCrlf_of_notMem (notMem_of_graphic hpath (by decide)), noCrlf_of_notMem (by decide)⟩
  rw [← framed_postRequest_iff hhost]
  constructor
  · exact framed_of_readRequest
  · intro hframed
    have hread := readRequest_writeRequest hframed hparts hline []
    rwa [List.append_nil] at hread

/-- The bytes that are written if the peer is up. -/
theorem written_deliver {parse : RequestUrlParser} {delivery : Delivery} {url : RequestUrl}
    {host : String} (hparse : parse delivery.url = .ok url) (hscheme : url.scheme = "http")
    (hhost : url.hostStr = some host) (hplain : HttpSink.supports delivery.url)
    {lib : SinkLibrary} (hup : lib.Up) (sink : HttpSink) :
    (sink.deliver parse lib delivery).written =
      writeRequest (postRequest host (if url.path.isEmpty then "/" else url.path)
        delivery.headers delivery.bodyJson) := by
  obtain ⟨stream, hconnect, hread, hwrite, htakes⟩ := hup host (url.port.getD 80)
  have hopened : sink.openStream parse lib delivery =
      .ok ⟨stream, host, url.port.getD 80, if url.path.isEmpty then "/" else url.path⟩ := by
    rw [HttpSink.openStream, hparse]
    dsimp only
    rw [if_neg (not_not.mpr hscheme), hhost]
    dsimp only
    rw [hconnect]
    change (do
      (stream.setReadTimeout sink.timeout).mapError SinkError.timeout
      (stream.setWriteTimeout sink.timeout).mapError SinkError.timeout
      Except.ok (HttpSink.Opened.mk stream host _ _)) = _
    rw [hread, hwrite]
    rfl
  rw [← bytesOf_requestText, HttpSink.deliver, hplain, HttpSink.request, hopened]
  dsimp only
  rw [htakes, htakes]
  rfl

theorem framed_request_iff {parse : RequestUrlParser} (laws : UrlLaws parse) {d : WorkflowDef}
    (hvalid : validateDefinition parse.forValidation d = .ok ()) {spec : HookSpec}
    (hspec : spec ∈ d.hooks.all) {events : EventLibrary} {kind : EventKind} {ev : RunEventDoc}
    {delivery : Delivery} (hdelivery : deliveryTo events kind ev spec = some delivery)
    (hplain : HttpSink.supports delivery.url) {lib : SinkLibrary} (hup : lib.Up)
    (sink : HttpSink) :
    ∃ url host, parse delivery.url = .ok url ∧ url.hostStr = some host ∧
      (readRequest (sink.deliver parse lib delivery).written =
          some (postRequest host (if url.path.isEmpty then "/" else url.path) spec.headers
            (events.serialize ev), []) ↔
        ∀ header ∈ spec.headers, Harmless (events.serialize ev) header) := by
  obtain ⟨text, hurl, rfl⟩ := Option.map_eq_some_iff.mp hdelivery
  obtain ⟨parsed, host, hparsed, hhost⟩ := parse_of_validateDefinition hvalid hspec hurl
  obtain ⟨url, hparse, rfl⟩ := map_eq_ok hparsed
  have hscheme := laws.scheme hparse hplain
  refine ⟨url, host, hparse, hhost, ?_⟩
  rw [written_deliver hparse hscheme hhost hplain hup]
  dsimp only
  have hpath : Graphic (if url.path.isEmpty then "/" else url.path) := by
    split_ifs
    · decide
    · exact laws.path hparse hscheme
  exact readRequest_postRequest_iff (laws.host hparse hscheme hhost) hpath _ _

def localUrls : RequestUrlParser := fun url ↦
  if url = "http://hooks/a" then .ok ⟨⟨"http", some "hooks"⟩, none, "/a"⟩
  else .error "relative URL without a base"

theorem urlLaws_localUrls : UrlLaws localUrls := by
  have hknown : ∀ {url parsed}, localUrls url = .ok parsed →
      parsed = ⟨⟨"http", some "hooks"⟩, none, "/a"⟩ := fun {url parsed} h ↦ by
    rw [localUrls] at h
    split_ifs at h
    exact (Except.ok.inj h).symm
  constructor
  · intro url parsed h _
    rw [hknown h]
  · intro url parsed host h _ hhost
    rw [hknown h] at hhost
    obtain rfl := Option.some.inj hhost
    decide
  · intro url parsed h _
    rw [hknown h]
    decide

/-- A peer that takes everything and answers that it did. -/
def localPeer : SinkLibrary where
  connect _ _ := .ok ⟨fun _ ↦ .ok (), fun _ ↦ .ok (), fun _ ↦ .ok (),
    fun _ ↦ .ok (bytesOf "HTTP/1.1 204 No Content\r\n\r\n")⟩
  fromUtf8Lossy bytes := String.ofList (bytes.map fun b ↦ Char.ofNat b.toNat)

theorem up_localPeer : localPeer.Up :=
  fun _ _ ↦ ⟨_, rfl, fun _ ↦ rfl, fun _ ↦ rfl, fun _ ↦ rfl⟩

def tracedHook (trace : String) : HookSpec where
  webhookUrl := some "http://hooks/a"
  headers := [("X-Trace", trace)]

def tracedDef (trace : String) : WorkflowDef where
  tenant := "t"
  name := "flow"
  tasks := [{ name := "a", handler := ⟨"h"⟩ }]
  hooks := { onSuccess := [tracedHook trace] }

def tracedEvent : RunEventDoc :=
  .fromRun { id := ⟨"r"⟩, tenant := "t", defName := "flow", status := .succeeded } .runSucceeded 0

def tracedDelivery (trace : String) : Delivery :=
  ⟨deliveryId plainLibrary ⟨"r"⟩ .runSucceeded "t" "flow", "http://hooks/a", [("X-Trace", trace)],
    "body"⟩

theorem framed_request_traced :
    validateDefinition localUrls.forValidation (tracedDef "1") = .ok () ∧
    ∃ url host, localUrls "http://hooks/a" = .ok url ∧ url.hostStr = some host ∧
      (readRequest (HttpSink.deliver {} localUrls localPeer (tracedDelivery "1")).written =
          some (postRequest host (if url.path.isEmpty then "/" else url.path) [("X-Trace", "1")]
            "body", []) ↔
        ∀ header ∈ [("X-Trace", "1")], Harmless "body" header) := by
  have hvalid : validateDefinition localUrls.forValidation (tracedDef "1") = .ok () := by
    decide
  have hhook : tracedHook "1" ∈ (tracedDef "1").hooks.all := List.mem_cons_self
  have hdelivery : deliveryTo plainLibrary .runSucceeded tracedEvent (tracedHook "1") =
      some (tracedDelivery "1") := rfl
  have hplain : HttpSink.supports (tracedDelivery "1").url := by decide
  exact ⟨hvalid, framed_request_iff urlLaws_localUrls hvalid hhook hdelivery hplain up_localPeer {}⟩

/-- The text of a header can hold the end of its line and a header of its own. -/
theorem header_smuggled :
    UrlLaws localUrls ∧ localPeer.Up ∧
    validateDefinition localUrls.forValidation (tracedDef "1\r\nX-Admin: yes") = .ok () ∧
    tracedHook "1\r\nX-Admin: yes" ∈ (tracedDef "1\r\nX-Admin: yes").hooks.all ∧
    deliveryTo plainLibrary .runSucceeded tracedEvent (tracedHook "1\r\nX-Admin: yes") =
      some (tracedDelivery "1\r\nX-Admin: yes") ∧
    HttpSink.supports "http://hooks/a" ∧
    readRequest
        (HttpSink.deliver {} localUrls localPeer (tracedDelivery "1\r\nX-Admin: yes")).written =
      some (postRequest "hooks" "/a" [("X-Trace", "1"), ("X-Admin", "yes")] "body", []) ∧
    postRequest "hooks" "/a" [("X-Trace", "1"), ("X-Admin", "yes")] "body" ≠
      postRequest "hooks" "/a" [("X-Trace", "1\r\nX-Admin: yes")] "body" := by
  exact ⟨urlLaws_localUrls, up_localPeer, by decide, List.mem_cons_self, rfl,
    by decide +kernel, by decide +kernel, by decide +kernel⟩

end Runvane.Events
