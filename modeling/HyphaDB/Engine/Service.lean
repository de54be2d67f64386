import HyphaDB.Engine.Iterator
import HyphaDB.Lib.Base64

/-!
# HyphaDB.Engine.Service

`Service.Scan`: a range scan in **pages**. A page token is the encoded last key of the page
before; the next page starts at that key and leaves it out. An empty token asks for the first
page, and in a response it says that there are no more.

The request's context is not modelled: it is never cancelled.
-/

namespace HyphaDB

structure ScanRequest where
  start : Key := []
  stop : Key := []
  limit : Int := 0
  pageToken : Bytes := []
  deriving Repr, DecidableEq

/-- A key with its value. -/
abbrev ScanEntry : Type := Key × Bytes

structure ScanResponse where
  entries : List ScanEntry := []
  nextPageToken : Bytes := []
  deriving Repr, DecidableEq

inductive ServiceError
  | invalidRequest
  | db (e : DBError)
  deriving Repr, DecidableEq

def encodePageToken (key : Key) : Bytes := Base64.encode key
def decodePageToken (token : Bytes) : Option Key := Base64.decode token

/-- `NewIterator`, without the registration of the reader. -/
def openIterator (s : Sys) (opts : IteratorOptions) : Except DBError Iterator :=
  if s.db.closed then .error .closed
  else
    match s.db.limits.validateKey opts.start with
    | .error e => .error e
    | .ok () =>
        match s.db.limits.validateKey opts.stop with
        | .error e => .error e
        | .ok () => newIterator s opts s.db.currentSequence

/-- The loop of `Scan` over what the iterator yields. -/
def scanLoop (req : ScanRequest) (start : Key) :
    List ScanEntry → List Record → ScanResponse
  | entries, [] => ⟨entries, []⟩
  | entries, r :: rest =>
      if req.pageToken ≠ [] ∧ r.key = start then scanLoop req start entries rest
      else
        let entries := entries ++ [(r.key, r.value)]
        if 0 < req.limit ∧ req.limit ≤ entries.length then
          ⟨entries, if rest ≠ [] then encodePageToken r.key else []⟩
        else scanLoop req start entries rest

/-- `Service.Scan`. -/
def scan (s : Sys) (req : ScanRequest) : Except ServiceError ScanResponse :=
  if req.limit < 0 then .error .invalidRequest
  else
    match if req.pageToken ≠ [] then decodePageToken req.pageToken else some req.start with
    | none => .error .invalidRequest
    | some start =>
        match openIterator s { start, stop := req.stop } with
        | .error e => .error (.db e)
        | .ok it => .ok (scanLoop req start [] it.output)

/-- The first `n` pages of a client that repeats a request with the token of the response,
until the token is empty: the entries, and the token to go on with. The state may change from
page to page. -/
def scanPages (req : ScanRequest) (states : Nat → Sys) :
    Nat → Except ServiceError (List ScanEntry × Option Bytes)
  | 0 => .ok ([], some [])
  | n + 1 =>
      match scanPages req states n with
      | .error e => .error e
      | .ok (entries, none) => .ok (entries, none)
      | .ok (entries, some token) =>
          match scan (states n) { req with pageToken := token } with
          | .error e => .error e
          | .ok resp =>
              .ok (entries ++ resp.entries,
                if resp.nextPageToken = [] then none else some resp.nextPageToken)

end HyphaDB
