import SteleDb.Lib.Base64
import SteleDb.Lib.Decimal
import SteleDb.Lib.ExceptMap
import SteleDb.Session.CatalogCodec

/-!
# The SASL exchange

How a connection proves a password.  The server offers its mechanisms, the client answers with one
of them and its first message, the server sends a nonce with the salt and the iterations of the
user's verifier, and the client signs both first messages and its own last one.  The proof is
checked against the stored key, and the server signs the same text with its own key.

Texts are bytes that are valid UTF-8, and a slice of a text is an error of its own, `panic`, if it
does not begin and end between characters.  The hash, the keyed hash and the preparation of
passwords are parameters: nothing here depends on what they compute.
-/

namespace SteleDb

namespace Wire

/-! ### Keys -/

/-- The functions that the exchange computes with. -/
structure Crypto where
  /-- SHA-256. -/
  sha256 : Bytes → Digest
  /-- HMAC-SHA-256. -/
  hmacSha256 : Bytes → Bytes → Digest
  /-- SASLprep; `none` if the text is not one that can be prepared. -/
  saslprep : Bytes → Option Bytes

/-- The bitwise exclusive or. -/
def xorDigest (a b : Digest) : Digest := fun i => a i ^^^ b i

/-- Equality of byte strings, in a time that does not depend on where they differ. -/
def ctEq (a b : Bytes) : Bool :=
  if a.length ≠ b.length then false
  else (List.zipWith (fun x y => x ^^^ y) a b).foldl (fun acc x => acc ||| x) 0 = 0

namespace Crypto

variable (c : Crypto)

/-- The password as it is hashed: prepared, or as it is. -/
def preparePassword (password : Bytes) : Bytes := (c.saslprep password).getD password

/-- The key derivation: the exclusive or of `iterations` chained keyed hashes. -/
def hi (password salt : Bytes) (iterations : ℕ) : Digest :=
  let u := c.hmacSha256 password (salt ++ [0, 0, 0, 1])
  ((List.range (iterations - 1)).foldl (fun acc _ =>
    let u := c.hmacSha256 password acc.1.bytes
    (u, xorDigest acc.2 u)) (u, u)).2

/-- The key that the client proves to have. -/
def clientKey (password salt : Bytes) (iterations : ℕ) : Digest :=
  c.hmacSha256 (c.hi (c.preparePassword password) salt iterations).bytes (ascii "Client Key")

/-- The key that the server proves to have. -/
def serverKey (password salt : Bytes) (iterations : ℕ) : Digest :=
  c.hmacSha256 (c.hi (c.preparePassword password) salt iterations).bytes (ascii "Server Key")

/-- The verifier of a password. -/
def derive (password salt : Bytes) (iterations : Fin (2 ^ 32)) : ScramVerifier where
  iterations := iterations
  salt := salt
  storedKey := c.sha256 (c.clientKey password salt iterations).bytes
  serverKey := c.serverKey password salt iterations

/-- The proof signs the message with the key of the verifier. -/
def verifyClientProof (v : ScramVerifier) (authMessage : Bytes) (proof : Digest) : Bool :=
  let signature := c.hmacSha256 (Digest.bytes v.storedKey) authMessage
  ctEq (c.sha256 (xorDigest proof signature).bytes).bytes (Digest.bytes v.storedKey)

/-- What the server signs a message with. -/
def serverSignature (v : ScramVerifier) (authMessage : Bytes) : Digest :=
  c.hmacSha256 (Digest.bytes v.serverKey) authMessage

/-- The proof of a client. -/
def clientProof (password salt : Bytes) (iterations : ℕ) (authMessage : Bytes) : Digest :=
  let clientKey := c.clientKey password salt iterations
  let storedKey := c.sha256 clientKey.bytes
  xorDigest clientKey (c.hmacSha256 storedKey.bytes authMessage)

end Crypto

/-! ### Refusals -/

/-- Why the server ends an exchange with a `FATAL` error. -/
inductive Refusal where
  | noUser
  | notSasl
  | missingMechanism
  | mechanismNotUtf8
  | initialTruncated
  | initialLength
  | firstNotUtf8
  | mechanism (name : Bytes)
  | malformedFirst
  | authorizationIdentity
  | mandatoryExtension
  | flagMismatch
  | bindingType
  | downgrade
  | finalNotUtf8
  | malformedFinal
  | channelBinding
  | nonce
  | password (user : Bytes)
  deriving DecidableEq, Repr

namespace Refusal

/-- Its SQLSTATE. -/
def sqlstate : Refusal → String
  | noUser => "28000"
  | authorizationIdentity | mandatoryExtension => "0A000"
  | password _ => "28P01"
  | _ => "08P01"

/-- Its text; the mechanism and the user stand behind it, in quotes. -/
def message : Refusal → String
  | noUser => "no PostgreSQL user name specified in startup packet"
  | notSasl => "expected a SASL response during authentication"
  | missingMechanism => "SASLInitialResponse missing mechanism"
  | mechanismNotUtf8 => "SASL mechanism is not UTF-8"
  | initialTruncated => "SASLInitialResponse truncated"
  | initialLength => "SASLInitialResponse length does not match its payload"
  | firstNotUtf8 => "SCRAM client-first message is not UTF-8"
  | mechanism _ => "client selected an invalid SASL authentication mechanism: "
  | malformedFirst => "malformed SCRAM client-first message"
  | authorizationIdentity => "client uses authorization identity, but it is not supported"
  | mandatoryExtension => "SCRAM mandatory extensions are not supported"
  | flagMismatch =>
    "malformed SCRAM message: channel-binding flag does not match the selected SASL mechanism"
  | bindingType => "unsupported SCRAM channel binding type"
  | downgrade => "channel binding required: this server advertised SCRAM-SHA-256-PLUS but " ++
    "the client requested none (possible man-in-the-middle downgrade)"
  | finalNotUtf8 => "SASL response is not valid UTF-8"
  | malformedFinal => "malformed SCRAM client-final message"
  | channelBinding =>
    "malformed SCRAM message: channel binding does not match the initial gs2 header"
  | nonce => "malformed SCRAM message: nonce does not match this exchange"
  | password _ => "password authentication failed for user "

end Refusal

/-- Why reading a message stops. -/
inductive Stop where
  /-- A slice out of bounds, or inside a character. -/
  | panic
  /-- A message that the server refuses. -/
  | refused (r : Refusal)
  deriving DecidableEq, Repr

/-! ### Texts -/

/-- `&text[..i]`. -/
def sliceTo (text : Bytes) (i : ℕ) : Except Stop Bytes :=
  if isCharBoundary text i then .ok (text.take i) else .error .panic

/-- `&text[i..]`. -/
def sliceFrom (text : Bytes) (i : ℕ) : Except Stop Bytes :=
  if isCharBoundary text i then .ok (text.drop i) else .error .panic

/-- `&bytes[..i]`. -/
def bytesTo (bytes : Bytes) (i : ℕ) : Except Stop Bytes :=
  if i ≤ bytes.length then .ok (bytes.take i) else .error .panic

/-- `&bytes[i..]`. -/
def bytesFrom (bytes : Bytes) (i : ℕ) : Except Stop Bytes :=
  if i ≤ bytes.length then .ok (bytes.drop i) else .error .panic

/-- `str::strip_prefix`. -/
def strip (pat text : Bytes) : Option Bytes :=
  if pat.isPrefixOf text then some (text.drop pat.length) else none

/-- `str::split_once` at a comma. -/
def splitOnce (text : Bytes) : Option (Bytes × Bytes) :=
  match text.findIdx? (· = 44) with
  | none => none
  | some i => some (text.take i, text.drop (i + 1))

/-- `str::rfind`. -/
def rfind (pat : Bytes) : Bytes → Option ℕ
  | [] => if pat = [] then some 0 else none
  | b :: text =>
    match rfind pat text with
    | some i => some (i + 1)
    | none => if pat.isPrefixOf (b :: text) then some 0 else none

/-- An `i32`, most significant byte first. -/
def i32OfBeBytes (bytes : Bytes) : ℤ :=
  let n : ℕ := bytes.foldl (fun (acc : ℕ) b => 256 * acc + b.val) 0
  if n < 2 ^ 31 then n else (n : ℤ) - 2 ^ 32

/-! ### Messages of the client -/

/-- The mechanism always offered. -/
def mechanismScram : Bytes := ascii "SCRAM-SHA-256"

/-- The mechanism with channel binding. -/
def mechanismPlus : Bytes := ascii "SCRAM-SHA-256-PLUS"

/-- The type of channel binding understood. -/
def cbindType : Bytes := ascii "tls-server-end-point"

/-- The mechanism and the first message of a `SASLInitialResponse`. -/
def parseSaslInitial (payload : Bytes) : Except Stop (Bytes × Bytes) :=
  match payload.findIdx? (· = 0) with
  | none => .error (.refused .missingMechanism)
  | some nul => do
    let mechanism ← bytesTo payload nul
    if !validUtf8 mechanism then .error (.refused .mechanismNotUtf8)
    else
      let rest ← bytesFrom payload (nul + 1)
      if rest.length < 4 then .error (.refused .initialTruncated)
      else
        let declared := i32OfBeBytes (rest.take 4)
        let body := rest.drop 4
        let expected := min (body.length : ℤ) (2 ^ 31 - 1)
        if declared < 0 ∨ declared ≠ expected then .error (.refused .initialLength)
        else if !validUtf8 body then .error (.refused .firstNotUtf8)
        else .ok (mechanism, body)

/-- What a client says about channel binding. -/
inductive CbindFlag where
  /-- `n`: it has none. -/
  | notSupported
  /-- `y`: it has, and believes that the server has not. -/
  | supportedButUnused
  /-- `p`: it requires this type. -/
  | required (type : Bytes)
  deriving DecidableEq, Repr

/-- The data that `c=` commits to, if channel binding is in force. -/
def reconcileChannelBinding (flag : CbindFlag) (chosePlus : Bool) (channelBinding : Option Bytes) :
    Except Refusal (Option Bytes) :=
  let isRequired := match flag with
    | .required _ => true
    | _ => false
  if isRequired ≠ chosePlus then .error .flagMismatch
  else
    match flag with
    | .required type => if type = cbindType then .ok channelBinding else .error .bindingType
    | .supportedButUnused => if channelBinding.isSome then .error .downgrade else .ok none
    | .notSupported => .ok none

/-- A client's first message. -/
structure ClientFirst where
  /-- What `c=` repeats, verbatim. -/
  gs2Header : Bytes
  /-- The flag in it. -/
  cbindFlag : CbindFlag
  /-- The rest of the message, verbatim. -/
  bare : Bytes
  /-- The client's nonce. -/
  nonce : Bytes
  deriving DecidableEq, Repr

/-- What follows a flag of one letter. -/
def afterLetter (flag : CbindFlag) (raw : Bytes) : Except Stop (CbindFlag × Bytes) :=
  if isCharBoundary raw 1 then .ok (flag, raw.drop 1) else .error (.refused .malformedFirst)

/-- The type of channel binding behind `p=`, and what follows it. -/
def afterType (afterEq : Bytes) : Except Stop (CbindFlag × Bytes) :=
  match afterEq.findIdx? (· = 44) with
  | none => .error (.refused .malformedFirst)
  | some comma => do
    let type ← sliceTo afterEq comma
    if type = [] then .error (.refused .malformedFirst)
    else
      let text ← sliceFrom afterEq comma
      .ok (.required type, text)

/-- The flag at the start of a first message, and what follows it. -/
def parseCbindFlag (raw : Bytes) : Except Stop (CbindFlag × Bytes) :=
  if raw.head? = some 110 then afterLetter .notSupported raw
  else if raw.head? = some 121 then afterLetter .supportedButUnused raw
  else if raw.head? = some 112 then
    (strip (ascii "p=") raw).elim (.error (.refused .malformedFirst)) afterType
  else .error (.refused .malformedFirst)

/-- The nonce among the attributes of a first message. -/
def parseBare (bare : Bytes) : Except Refusal Bytes :=
  match bare.splitOn 44 with
  | [] => .error .malformedFirst
  | username :: attrs =>
    if (ascii "m=").isPrefixOf username then .error .mandatoryExtension
    else if !(ascii "n=").isPrefixOf username then .error .malformedFirst
    else
      match attrs.head?.bind (strip (ascii "r=")) with
      | none => .error .malformedFirst
      | some nonce =>
        if nonce = [] ∨ !nonce.all (fun b => 0x21 ≤ b ∧ b ≤ 0x7E ∧ b ≠ 44) then
          .error .malformedFirst
        else .ok nonce

/-- A first message whose flag is read. -/
def readBare (raw : Bytes) (cbindFlag : CbindFlag) (authzid bare : Bytes) :
    Except Stop ClientFirst :=
  if authzid ≠ [] then .error (.refused .authorizationIdentity)
  -- the length of the header is a subtraction of lengths
  else if raw.length < bare.length then .error .panic
  else do
    let gs2Header ← sliceTo raw (raw.length - bare.length)
    let nonce ← (parseBare bare).mapError .refused
    .ok ⟨gs2Header, cbindFlag, bare, nonce⟩

/-- Read a client's first message. -/
def parseClientFirst (raw : Bytes) : Except Stop ClientFirst := do
  let flag ← parseCbindFlag raw
  ((strip [44] flag.2).bind splitOnce).elim (.error (.refused .malformedFirst)) fun e =>
    readBare raw flag.1 e.1 e.2

/-- A client's last message. -/
structure ClientFinal where
  /-- The value of `c=`. -/
  channelBinding : Bytes
  /-- The value of `r=`. -/
  nonce : Bytes
  /-- What stands before the proof, verbatim. -/
  withoutProof : Bytes
  /-- The proof. -/
  proof : Digest

/-- The attributes of a last message without its proof. -/
def readFinal (withoutProof : Bytes) (proof : Digest) : Except Stop ClientFinal :=
  let attrs := withoutProof.splitOn 44
  match attrs.head?.bind (strip (ascii "c=")), attrs.tail.head?.bind (strip (ascii "r=")) with
  | some channelBinding, some nonce => .ok ⟨channelBinding, nonce, withoutProof, proof⟩
  | _, _ => .error (.refused .malformedFinal)

/-- Read a client's last message. -/
def parseClientFinal (raw : Bytes) : Except Stop ClientFinal :=
  match rfind (ascii ",p=") raw with
  | none => .error (.refused .malformedFinal)
  | some idx => do
    let withoutProof ← sliceTo raw idx
    let text ← sliceFrom raw (idx + 3)
    match b64Decode text with
    | none => .error (.refused .malformedFinal)
    | some proof =>
      if proof.length ≠ 32 then .error (.refused .malformedFinal)
      else readFinal withoutProof (Digest.ofBytes proof)

/-! ### The exchange -/

/-- A message of the server. -/
inductive ServerMessage where
  /-- An `Authentication` request with its code. -/
  | sasl (code : ℕ) (data : Bytes)
  /-- A `FATAL` error. -/
  | fatal (r : Refusal)
  deriving DecidableEq, Repr

/-- How an exchange ends without a user. -/
inductive AuthError where
  /-- The server refused. -/
  | authFailed
  /-- The connection broke the protocol. -/
  | protocol (message : String)
  /-- The stream or the source of random bytes failed. -/
  | io
  | panic
  deriving DecidableEq, Repr

/-- A connection during the exchange. -/
structure Channel where
  /-- What the client has sent and the server has not read. -/
  input : Bytes
  /-- What the server has sent. -/
  sent : List ServerMessage

/-- A part of the exchange. -/
abbrev Exchange (α : Type) := ExceptT AuthError (StateM Channel) α

/-- Write the refusal and end the exchange. -/
def fail {α : Type} (r : Refusal) : Exchange α := do
  modify fun ch => { ch with sent := ch.sent ++ [.fatal r] }
  throw .authFailed

/-- End the exchange if reading a message stopped. -/
def orFail {α : Type} : Except Stop α → Exchange α
  | .ok a => pure a
  | .error .panic => throw .panic
  | .error (.refused r) => fail r

/-- Write a request, if its length is an `i32`. -/
def writeAuthRequest (code : ℕ) (data : Bytes) : Exchange Unit :=
  if 8 + data.length < 2 ^ 31 then
    modify fun ch => { ch with sent := ch.sent ++ [.sasl code data] }
  else throw .io

/-- The longest payload of a message: 16 MiB. -/
def maxMessagePayloadSize : ℕ := 16 * 1024 * 1024

/-- Read a message; `none` if the client has closed the connection. -/
def readTypedMessage : Exchange (Option (Fin 256 × Bytes)) := do
  let ch ← get
  if ch.input.length < 5 then return none
  else
    let length := i32OfBeBytes ((ch.input.drop 1).take 4)
    if length < 4 then throw (.protocol "message length < 4")
    else if maxMessagePayloadSize < length - 4 then
      throw (.protocol "message payload exceeds limit")
    else
      let payloadLen := (length - 4).toNat
      let rest := ch.input.drop 5
      if rest.length < payloadLen then throw .io
      else
        set { ch with input := rest.drop payloadLen }
        return ch.input.head?.map fun kind => (kind, rest.take payloadLen)

/-- Read a message and require it to be a SASL response. -/
def readSaslMessage : Exchange Bytes := do
  let msg ← readTypedMessage
  msg.elim (throw (.protocol "connection closed during authentication")) fun m =>
    if m.1 ≠ 112 then fail .notSasl else return m.2

/-- The list of mechanisms. -/
def saslMechanismList (channelBinding : Option Bytes) : Bytes :=
  (if channelBinding.isSome then mechanismPlus ++ [0] else []) ++ mechanismScram ++ [0, 0]

/-- What the server takes from the session and from its source of random bytes. -/
structure Server where
  /-- The verifier of a user. -/
  authVerifier : Bytes → Option ScramVerifier
  /-- The verifier that stands in for a user that does not exist. -/
  mockVerifier : Option ScramVerifier
  /-- The random bytes of the server's nonce. -/
  rawNonce : Option Bytes

/-- The nonce of the exchange, and the server's first message. -/
def serverFirstMessage (clientNonce rawNonce : Bytes) (v : ScramVerifier) : Bytes × Bytes :=
  let serverNonce := clientNonce ++ b64Encode rawNonce
  (serverNonce, ascii "r=" ++ serverNonce ++ ascii ",s=" ++ b64Encode v.salt ++ ascii ",i=" ++
    decimal v.iterations)

/-- The verifier to check against, and whether the user exists. -/
def lookupVerifier (server : Server) (user : Bytes) : Exchange (ScramVerifier × Bool) :=
  match server.authVerifier user with
  | some v => pure (v, true)
  | none =>
    match server.mockVerifier with
    | some v => pure (v, false)
    | none => throw .io

/-- The text that both sides sign. -/
def authMessage (bare serverFirst withoutProof : Bytes) : Bytes :=
  bare ++ [44] ++ serverFirst ++ [44] ++ withoutProof

/-- Read the client's choice of a mechanism and its first message, and settle what `c=` commits
to. -/
def receiveFirst (channelBinding : Option Bytes) : Exchange (ClientFirst × Option Bytes) := do
  let payload ← readSaslMessage
  let initial ← orFail (parseSaslInitial payload)
  let chosePlus : Bool := initial.1 = mechanismPlus
  if !(initial.1 = mechanismScram ∨ (chosePlus ∧ channelBinding.isSome)) then
    fail (.mechanism initial.1)
  else
    let clientFirst ← orFail (parseClientFirst initial.2)
    let cbindData ← orFail
      ((reconcileChannelBinding clientFirst.cbindFlag chosePlus channelBinding).mapError .refused)
    return (clientFirst, cbindData)

/-- Read the client's last message. -/
def receiveFinal : Exchange ClientFinal := do
  let payload ← readSaslMessage
  if !validUtf8 payload then fail .finalNotUtf8
  else orFail (parseClientFinal payload)

/-- Check the client's last message against the exchange, and sign the server's. -/
def checkFinal (c : Crypto) (user : Bytes) (clientFirst : ClientFirst) (cbindData : Option Bytes)
    (verifier : ScramVerifier) (known : Bool) (serverNonce serverFirst : Bytes)
    (clientFinal : ClientFinal) : Exchange Bytes :=
  if clientFinal.channelBinding ≠ b64Encode (clientFirst.gs2Header ++ cbindData.getD []) then
    fail .channelBinding
  else if clientFinal.nonce ≠ serverNonce then fail .nonce
  else
    let message := authMessage clientFirst.bare serverFirst clientFinal.withoutProof
    let proofOk := c.verifyClientProof verifier message clientFinal.proof
    if !(proofOk && known) then fail (.password user)
    else do
      writeAuthRequest 12 (ascii "v=" ++ b64Encode (c.serverSignature verifier message).bytes)
      return user

/-- The random bytes of the nonce, unless the source of random bytes fails. -/
def fillNonce (server : Server) : Exchange Bytes := server.rawNonce.elim (throw .io) pure

/-- Run the exchange and return the user. -/
def authenticate (c : Crypto) (server : Server) (startup : List (Bytes × Bytes))
    (channelBinding : Option Bytes) : Exchange Bytes :=
  (startup.find? fun p => p.1 = ascii "user").elim (fail .noUser) fun p => do
    writeAuthRequest 10 (saslMechanismList channelBinding)
    let first ← receiveFirst channelBinding
    let found ← lookupVerifier server p.2
    let rawNonce ← fillNonce server
    let challenge := serverFirstMessage first.1.nonce rawNonce found.1
    writeAuthRequest 11 challenge.2
    let clientFinal ← receiveFinal
    checkFinal c p.2 first.1 first.2 found.1 found.2 challenge.1 challenge.2 clientFinal

/-- Run a part of the exchange on a connection. -/
def Exchange.runOn {α : Type} (x : Exchange α) (ch : Channel) : Except AuthError α × Channel :=
  x.run.run ch

end Wire

end SteleDb
