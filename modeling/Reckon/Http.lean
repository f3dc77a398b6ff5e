/-!
Messages of the HTTP protocol, as far as the service and the client of the symbolic backend look
at them.
-/

namespace Reckon.Http

structure Request where
  method : String
  /-- A path that a query may follow, or a whole URL. -/
  target : String
  body : List UInt8
deriving DecidableEq

structure Response where
  status : Nat
  body : List UInt8
deriving DecidableEq

namespace Request

/-- What stands behind scheme and authority, in a target that is a URL with both. -/
def afterAuthority? (target : List Char) : Option (List Char) :=
  let isScheme (c : Char) : Bool := c.isAlphanum || c == '+' || c == '-' || c == '.'
  match target.dropWhile isScheme with
  | ':' :: '/' :: '/' :: rest => some (rest.dropWhile fun c => c != '/' && c != '?' && c != '#')
  | _ => none

/-- The target without scheme, authority, query and fragment. The path of a URL is never empty. -/
def path (r : Request) : List Char :=
  let withoutQuery (cs : List Char) : List Char := cs.takeWhile fun c => c != '?' && c != '#'
  match afterAuthority? r.target.toList with
  | none => withoutQuery r.target.toList
  | some rest => if withoutQuery rest = [] then ['/'] else withoutQuery rest

end Request

def isSuccess (status : Nat) : Bool := 200 ≤ status && status < 300

/-- The phrase that belongs to a status, if it is a registered one. -/
def reason? : Nat → Option String
  | 100 => "Continue"
  | 101 => "Switching Protocols"
  | 102 => "Processing"
  | 103 => "Early Hints"
  | 200 => "OK"
  | 201 => "Created"
  | 202 => "Accepted"
  | 203 => "Non Authoritative Information"
  | 204 => "No Content"
  | 205 => "Reset Content"
  | 206 => "Partial Content"
  | 207 => "Multi-Status"
  | 208 => "Already Reported"
  | 226 => "IM Used"
  | 300 => "Multiple Choices"
  | 301 => "Moved Permanently"
  | 302 => "Found"
  | 303 => "See Other"
  | 304 => "Not Modified"
  | 305 => "Use Proxy"
  | 307 => "Temporary Redirect"
  | 308 => "Permanent Redirect"
  | 400 => "Bad Request"
  | 401 => "Unauthorized"
  | 402 => "Payment Required"
  | 403 => "Forbidden"
  | 404 => "Not Found"
  | 405 => "Method Not Allowed"
  | 406 => "Not Acceptable"
  | 407 => "Proxy Authentication Required"
  | 408 => "Request Timeout"
  | 409 => "Conflict"
  | 410 => "Gone"
  | 411 => "Length Required"
  | 412 => "Precondition Failed"
  | 413 => "Payload Too Large"
  | 414 => "URI Too Long"
  | 415 => "Unsupported Media Type"
  | 416 => "Range Not Satisfiable"
  | 417 => "Expectation Failed"
  | 418 => "I'm a teapot"
  | 421 => "Misdirected Request"
  | 422 => "Unprocessable Entity"
  | 423 => "Locked"
  | 424 => "Failed Dependency"
  | 425 => "Too Early"
  | 426 => "Upgrade Required"
  | 428 => "Precondition Required"
  | 429 => "Too Many Requests"
  | 431 => "Request Header Fields Too Large"
  | 451 => "Unavailable For Legal Reasons"
  | 500 => "Internal Server Error"
  | 501 => "Not Implemented"
  | 502 => "Bad Gateway"
  | 503 => "Service Unavailable"
  | 504 => "Gateway Timeout"
  | 505 => "HTTP Version Not Supported"
  | 506 => "Variant Also Negotiates"
  | 507 => "Insufficient Storage"
  | 508 => "Loop Detected"
  | 510 => "Not Extended"
  | 511 => "Network Authentication Required"
  | _ => none

/-- A status with its phrase. -/
def statusText (status : Nat) : String :=
  s!"{status} " ++ (reason? status).getD "<unknown status code>"

/-- Statuses whose responses have no body. -/
def isBodiless (status : Nat) : Bool := status < 200 || status == 204 || status == 304

/-- The body that reaches the client. -/
def Response.content (r : Response) : List UInt8 := if isBodiless r.status then [] else r.body

end Reckon.Http
