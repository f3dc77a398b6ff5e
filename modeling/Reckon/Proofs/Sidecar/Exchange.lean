import Reckon.Proofs.Json.Literals
import Reckon.Sidecar

/-!
One request to the symbolic backend and what becomes of it. What is sent is read back as a document,
and what comes back is described by the fields its document has, each of which may be missing, null
or there. Whatever delivers responses and reads documents is given: any response may come, and a
document is what the codec of the client reads.
-/

namespace Reckon

namespace Json

/-- The values of the fields of one name. -/
def valuesOf (entries : List (Option String × Json)) (name : String) : List Json :=
  (entries.filter fun entry => entry.1 == some name).map (·.2)

theorem named?_eq_some_iff {entries : List (Option String × Json)} {name : String}
    {values : List Json} :
    named? entries name = some values ↔
      (∀ entry ∈ entries, entry.1.isSome) ∧ valuesOf entries name = values := by
  have hnames : (entries.any fun entry => entry.1.isNone) = false ↔
      ∀ entry ∈ entries, entry.1.isSome := by
    simp only [List.any_eq_false, Option.isNone_iff_eq_none, Option.isSome_iff_ne_none]
  unfold named?
  split
  · rename_i hany
    exact ⟨nofun, fun h => absurd (hnames.2 h.1) (by simp [hany])⟩
  · rename_i hany
    rw [and_iff_right (hnames.1 (Bool.eq_false_iff.2 hany)), Option.some_inj, valuesOf]

end Json

namespace Sidecar

/-- The operations that the backend has no path for. -/
inductive Lacks : Request.Operation → Prop where
  | derivative {name : String} {order : Nat} : order ≠ 1 → Lacks (.differentiate name order)
  | definite {name : String} {bounds : Expr × Expr} : Lacks (.integrate name (some bounds))
  | sum {name : String} {lower upper : Expr} : Lacks (.sum name lower upper)
  | limit {name : String} {point : Expr} : Lacks (.limit name point)

theorem endpoint_of_lacks {op : Request.Operation} (h : Lacks op) :
    ∃ message, endpoint op = .error message := by
  cases h with
  | derivative horder => exact ⟨_, if_neg horder⟩
  | definite | sum | limit => exact ⟨_, rfl⟩

theorem endpoint_of_not_lacks {op : Request.Operation} (h : ¬ Lacks op) :
    endpoint op = .ok op.name := by
  cases op with
  | simplify | evaluate | verify | solve => rfl
  | differentiate name order =>
      exact if_pos (Decidable.not_not.1 fun horder => h (.derivative horder))
  | integrate name bounds =>
      cases bounds with
      | none => rfl
      | some bounds => exact absurd .definite h
  | sum name lower upper => exact absurd .sum h
  | limit name point => exact absurd .limit h

section Fields

variable {α : Type} {read? : Json → Option α} {codec : Json.Codec}

/-- What a field says whose values are listed here: nothing if it is absent or null, otherwise what
its one value is read as. -/
inductive FieldSays (read? : Json → Option α) : List Json → Option α → Prop where
  | absent : FieldSays read? [] none
  | null : FieldSays read? [.null] none
  | value {value : Json} {x : α} : read? value = some x → FieldSays read? [value] (some x)

/-- What a document says, which has the fields by their names and maybe more, or lists them in an
array. -/
inductive Decodes (codec : Json.Codec) : Json → Fields → Prop where
  | object {entries : List (Option String × Json)} {fields : Fields} :
      (∀ entry ∈ entries, entry.1.isSome) →
      FieldSays Fields.text? (Json.valuesOf entries "result") fields.result →
      FieldSays Fields.text? (Json.valuesOf entries "latex") fields.latex →
      FieldSays (Fields.float? codec) (Json.valuesOf entries "execution_time_ms") fields.elapsedMs →
      FieldSays Fields.bool? (Json.valuesOf entries "verified") fields.verified →
      FieldSays Fields.text? (Json.valuesOf entries "error") fields.error →
      Decodes codec (.object entries) fields
  | array {result latex elapsed verified error : Json} {fields : Fields} :
      FieldSays Fields.text? [result] fields.result →
      FieldSays Fields.text? [latex] fields.latex →
      FieldSays (Fields.float? codec) [elapsed] fields.elapsedMs →
      FieldSays Fields.bool? [verified] fields.verified →
      FieldSays Fields.text? [error] fields.error →
      Decodes codec (.array [result, latex, elapsed, verified, error]) fields

theorem fieldSays_singleton_iff (hnull : read? .null = none) {value : Json} {x : Option α} :
    FieldSays read? [value] x ↔ Fields.optional read? value = some x := by
  constructor
  · intro h
    cases h with
    | null => rfl
    | value hread =>
        cases value with
        | null => exact absurd (hnull.symm.trans hread) nofun
        | _ => exact congrArg (Option.map some) hread
  · intro h
    cases value with
    | null =>
        obtain rfl := Option.some.inj h
        exact .null
    | _ =>
        obtain ⟨y, hread, rfl⟩ := Option.map_eq_some_iff.1 h
        exact .value hread

theorem exists_value?_iff (hnull : read? .null = none)
    {entries : List (Option String × Json)} {name : String} {x : Option α} :
    (∃ value, Fields.value? entries name = some value ∧ Fields.optional read? value = some x) ↔
      (∀ entry ∈ entries, entry.1.isSome) ∧ FieldSays read? (Json.valuesOf entries name) x := by
  cases hvalues : Json.named? entries name with
  | none =>
      have hnames : ¬ ∀ entry ∈ entries, entry.1.isSome := fun hnames =>
        absurd (hvalues.symm.trans (Json.named?_eq_some_iff.2 ⟨hnames, rfl⟩)) nofun
      rw [Fields.value?, hvalues]
      exact ⟨nofun, fun h => absurd h.1 hnames⟩
  | some values =>
      obtain ⟨hnames, rfl⟩ := Json.named?_eq_some_iff.1 hvalues
      rw [Fields.value?, hvalues, and_iff_right hnames]
      match Json.valuesOf entries name with
      | [] =>
          constructor
          · rintro ⟨_, hvalue, hx⟩
            obtain rfl := Option.some.inj hvalue
            obtain rfl := Option.some.inj hx
            exact .absent
          · rintro ⟨⟩
            exact ⟨_, rfl, rfl⟩
      | [value] => simp [fieldSays_singleton_iff hnull]
      | _ :: _ :: _ => exact ⟨nofun, nofun⟩

theorem ofItems?_eq_some_iff {result latex elapsed verified error : Json} {fields : Fields} :
    Fields.ofItems? codec result latex elapsed verified error = some fields ↔
      Fields.optional Fields.text? result = some fields.result ∧
      Fields.optional Fields.text? latex = some fields.latex ∧
      Fields.optional (Fields.float? codec) elapsed = some fields.elapsedMs ∧
      Fields.optional Fields.bool? verified = some fields.verified ∧
      Fields.optional Fields.text? error = some fields.error := by
  simp only [Fields.ofItems?, Option.bind_eq_bind, Option.bind_eq_some_iff, Option.pure_def,
    Option.some_inj]
  constructor
  · rintro ⟨_, hresult, _, hlatex, _, helapsed, _, hverified, _, herror, rfl⟩
    exact ⟨hresult, hlatex, helapsed, hverified, herror⟩
  · rintro ⟨hresult, hlatex, helapsed, hverified, herror⟩
    exact ⟨_, hresult, _, hlatex, _, helapsed, _, hverified, _, herror, rfl⟩

theorem ofJson?_eq_some_iff {document : Json} {fields : Fields} :
    Fields.ofJson? codec document = some fields ↔ Decodes codec document fields := by
  constructor
  · intro h
    unfold Fields.ofJson? at h
    split at h
    · obtain ⟨hresult, hlatex, helapsed, hverified, herror⟩ := ofItems?_eq_some_iff.1 h
      exact .array ((fieldSays_singleton_iff rfl).2 hresult)
        ((fieldSays_singleton_iff rfl).2 hlatex) ((fieldSays_singleton_iff rfl).2 helapsed)
        ((fieldSays_singleton_iff rfl).2 hverified) ((fieldSays_singleton_iff rfl).2 herror)
    · simp only [Option.bind_eq_bind, Option.bind_eq_some_iff, ofItems?_eq_some_iff] at h
      obtain ⟨_, hresult, _, hlatex, _, helapsed, _, hverified, _, herror, h⟩ := h
      obtain ⟨hresult', hlatex', helapsed', hverified', herror'⟩ := h
      obtain ⟨hnames, hresult⟩ := (exists_value?_iff rfl).1 ⟨_, hresult, hresult'⟩
      exact .object hnames hresult ((exists_value?_iff rfl).1 ⟨_, hlatex, hlatex'⟩).2
        ((exists_value?_iff rfl).1 ⟨_, helapsed, helapsed'⟩).2
        ((exists_value?_iff rfl).1 ⟨_, hverified, hverified'⟩).2
        ((exists_value?_iff rfl).1 ⟨_, herror, herror'⟩).2
    · exact absurd h nofun
  · intro h
    cases h with
    | array hresult hlatex helapsed hverified herror =>
        exact ofItems?_eq_some_iff.2 ⟨(fieldSays_singleton_iff rfl).1 hresult,
          (fieldSays_singleton_iff rfl).1 hlatex, (fieldSays_singleton_iff rfl).1 helapsed,
          (fieldSays_singleton_iff rfl).1 hverified, (fieldSays_singleton_iff rfl).1 herror⟩
    | object hnames hresult hlatex helapsed hverified herror =>
        obtain ⟨_, hresult, hresult'⟩ := (exists_value?_iff rfl).2 ⟨hnames, hresult⟩
        obtain ⟨_, hlatex, hlatex'⟩ := (exists_value?_iff rfl).2 ⟨hnames, hlatex⟩
        obtain ⟨_, helapsed, helapsed'⟩ := (exists_value?_iff rfl).2 ⟨hnames, helapsed⟩
        obtain ⟨_, hverified, hverified'⟩ := (exists_value?_iff rfl).2 ⟨hnames, hverified⟩
        obtain ⟨_, herror, herror'⟩ := (exists_value?_iff rfl).2 ⟨hnames, herror⟩
        simp only [Fields.ofJson?, hresult, hlatex, helapsed, hverified, herror,
          Option.bind_eq_bind, Option.bind_some]
        exact ofItems?_eq_some_iff.2 ⟨hresult', hlatex', helapsed', hverified', herror'⟩

end Fields

/-- A response whose body is a document that says this. -/
def Says (client : Client) (response : Http.Response) (fields : Fields) : Prop :=
  ∃ document, client.codec.read? response.content = some document ∧
    Decodes client.codec document fields

variable {client : Client}

theorem says_iff {response : Http.Response} {fields : Fields} :
    Says client response fields ↔
      (client.codec.read? response.content).bind (Fields.ofJson? client.codec) =
        some fields := by
  simp only [Says, Option.bind_eq_some_iff, ofJson?_eq_some_iff]

/-- The reply that a response stands for: an answer exactly if the status is a success and the body
says a result and no error, otherwise a failure of the backend, with the error text of the body if
it says one. -/
structure StandsFor (client : Client) (response : Http.Response) (reply : Reply) : Prop where
  answer : ∀ answer, reply = .ok answer ↔
    (200 ≤ response.status ∧ response.status < 300) ∧
      ∃ fields, Says client response fields ∧ fields.error = none ∧
        fields.result = some answer.result ∧ answer.latex = fields.latex.getD answer.result ∧
        answer.verified = fields.verified ∧ answer.backendMs = fields.elapsedMs
  failure : ∀ failure, reply = .error failure →
    ∃ message, failure = .backend message ∧
      ∀ fields error, Says client response fields → fields.error = some error → message = error

theorem Says.unique {response : Http.Response} {fields fields' : Fields}
    (h : Says client response fields) (h' : Says client response fields') : fields' = fields :=
  Option.some.inj ((says_iff.1 h').symm.trans (says_iff.1 h))

theorem reply_eq_ok_iff {fields : Fields} {answer : Answer} :
    fields.reply = .ok answer ↔
      fields.error = none ∧ fields.result = some answer.result ∧
        answer.latex = fields.latex.getD answer.result ∧ answer.verified = fields.verified ∧
        answer.backendMs = fields.elapsedMs := by
  obtain ⟨result, latex, elapsed, verified, error⟩ := fields
  cases error with
  | some error => simp [Fields.reply]
  | none =>
      cases result with
      | none => simp [Fields.reply]
      | some result =>
          constructor
          · rintro ⟨⟩
            exact ⟨rfl, rfl, rfl, rfl, rfl⟩
          · obtain ⟨result', latex', verified', backendMs⟩ := answer
            rintro ⟨-, hresult, hlatex, hverified, htime⟩
            obtain rfl := Option.some.inj hresult
            dsimp only at hlatex hverified htime
            rw [hlatex, hverified, htime]
            rfl

theorem reply_of_error {fields : Fields} {failure : DelegateFailure}
    (h : fields.reply = .error failure) :
    ∃ message, failure = .backend message ∧
      ∀ error, fields.error = some error → message = error := by
  obtain ⟨result, latex, elapsed, verified, error⟩ := fields
  cases error with
  | some error =>
      refine ⟨error, (Except.error.inj h).symm, fun error' herror => ?_⟩
      exact Option.some.inj herror
  | none =>
      cases result with
      | none => exact ⟨_, (Except.error.inj h).symm, nofun⟩
      | some result => exact absurd h nofun

theorem isSuccess_iff {status : Nat} :
    Http.isSuccess status = true ↔ 200 ≤ status ∧ status < 300 := by
  simp [Http.isSuccess]

section Read

variable {response : Http.Response} {fields : Fields}

theorem read_of_not_success (h : Http.isSuccess response.status = false) :
    ∃ message, client.read response = .error (.backend message) ∧ ∀ fields error,
      Says client response fields → fields.error = some error → message = error := by
  refine ⟨_, if_neg (by simp [h]), fun fields error hsaid herror => ?_⟩
  rw [says_iff.1 hsaid, Option.bind_some, herror, Option.getD_some]

theorem read_eq_reply (h : Http.isSuccess response.status = true)
    (hsaid : Says client response fields) : client.read response = fields.reply := by
  rw [Client.read, says_iff.1 hsaid]
  exact if_pos h

theorem read_eq_error (h : Http.isSuccess response.status = true)
    (hsaid : ∀ fields, ¬ Says client response fields) :
    ∃ message, client.read response = .error (.backend message) := by
  have hnone : (client.codec.read? response.content).bind (Fields.ofJson? client.codec) = none :=
    Option.eq_none_iff_forall_ne_some.2 fun fields hfields => hsaid fields (says_iff.2 hfields)
  rw [Client.read, hnone]
  exact ⟨_, if_pos h⟩

end Read

theorem standsFor_read (response : Http.Response) :
    StandsFor client response (client.read response) := by
  cases hsuccess : Http.isSuccess response.status with
  | false =>
      obtain ⟨message, hread, herror⟩ := read_of_not_success hsuccess
      have hstatus : ¬ (200 ≤ response.status ∧ response.status < 300) := fun hstatus =>
        absurd (isSuccess_iff.2 hstatus) (by simp [hsuccess])
      constructor
      · exact fun answer =>
          ⟨fun h => absurd (hread.symm.trans h) nofun, fun h => absurd h.1 hstatus⟩
      · exact fun failure h => ⟨message, Except.error.inj (h.symm.trans hread), herror⟩
  | true =>
      by_cases hsaid : ∃ fields, Says client response fields
      · obtain ⟨fields, hsaid⟩ := hsaid
        rw [read_eq_reply hsuccess hsaid]
        constructor
        · intro answer
          rw [reply_eq_ok_iff, and_iff_right (isSuccess_iff.1 hsuccess)]
          refine ⟨fun h => ⟨fields, hsaid, h⟩, ?_⟩
          rintro ⟨fields', hsaid', h⟩
          obtain rfl := hsaid.unique hsaid'
          exact h
        · intro failure h
          obtain ⟨message, hfailure, herror⟩ := reply_of_error h
          refine ⟨message, hfailure, fun fields' error hsaid' h' => ?_⟩
          obtain rfl := hsaid.unique hsaid'
          exact herror error h'
      · have hnone (fields : Fields) : ¬ Says client response fields := fun h => hsaid ⟨fields, h⟩
        obtain ⟨message, hread⟩ := read_eq_error hsuccess hnone
        constructor
        · intro answer
          refine ⟨fun h => absurd (hread.symm.trans h) nofun, ?_⟩
          rintro ⟨_, fields, h, _⟩
          exact absurd h (hnone fields)
        · exact fun failure h => ⟨message, Except.error.inj (h.symm.trans hread),
            fun fields _ h => absurd h (hnone fields)⟩

/-- A transport that notes each request behind those before it, and responds in the light of all of
them. -/
def Transport.recording (respond : List Http.Request → Except String Http.Response) :
    Transport (StateM (List Http.Request)) := fun request => do
  modify (· ++ [request])
  return respond (← get)

/-- What becomes of a request, and all that is sent for it. -/
def exchange (client : Client) (respond : List Http.Request → Except String Http.Response)
    (request : Request) : Reply × List Http.Request :=
  (client.delegate (Transport.recording respond) request).run []

/-- A message that asks for an operation: its document has the expression and, where the operation
has a variable, that variable, and nothing else. -/
structure Asks (client : Client) (request : Request) (message : Http.Request) : Prop where
  method : message.method = "POST"
  target : message.target = client.baseUrl ++ "/" ++ request.op.name
  body : ∃ entries, client.codec.read? message.body = some (.object entries) ∧
    Json.valuesOf entries "expression" = [.ofString request.expression.backendForm.text] ∧
    Json.valuesOf entries "variable" = request.op.variableName?.toList.map .ofString ∧
    ∀ entry ∈ entries, entry.1 = some "expression" ∨ entry.1 = some "variable"

theorem document_eq (request : Request) :
    document request = Json.ofTexts (("expression", request.expression.backendForm.text) ::
      (request.op.variableName?.map fun name => ("variable", name)).toList) := by
  unfold document
  cases request.op.variableName? <;> rfl

theorem asks_post (hcodec : client.codec.Lawful) (request : Request) :
    Asks client request (client.post request.op.name (document request)) := by
  refine ⟨rfl, rfl, ?_⟩
  have hread := hcodec.read_write ("expression", request.expression.backendForm.text)
    (request.op.variableName?.map fun name => ("variable", name)).toList
    (by cases request.op.variableName? <;> simp)
  rw [← document_eq] at hread
  refine ⟨_, hread.trans (by rw [document_eq, Json.ofTexts_eq]), ?_⟩
  cases request.op.variableName? <;> simp [Json.valuesOf, Json.ofString]

/-- The reply to a message, from what the transport returns for it. -/
def Client.received (client : Client) : Except String Http.Response → Reply
  | .error details => .error (.transport details)
  | .ok response => client.read response

variable (client) (respond : List Http.Request → Except String Http.Response) (request : Request)

theorem exchange_of_not_lacks (h : ¬ Lacks request.op) :
    exchange client respond request =
      (client.received (respond [client.post request.op.name (document request)]),
        [client.post request.op.name (document request)]) := by
  rw [exchange, Client.delegate, endpoint_of_not_lacks h]
  dsimp only
  cases hrespond : respond [client.post request.op.name (document request)] <;>
    simp [Transport.recording, hrespond, Client.received] <;> rfl

/-- What becomes of a request. An operation without a path is refused and nothing is sent. Any
other is sent as one message, and the reply is what the response stands for. -/
theorem exchange_settles (hcodec : client.codec.Lawful) :
    (Lacks request.op →
      ∃ message, exchange client respond request = (.error (.unsupported message), [])) ∧
    (¬ Lacks request.op →
      ∃ message reply, exchange client respond request = (reply, [message]) ∧
        Asks client request message ∧
        (∀ details, respond [message] = .error details → reply = .error (.transport details)) ∧
        ∀ response, respond [message] = .ok response → StandsFor client response reply) := by
  constructor
  · intro h
    obtain ⟨message, hpath⟩ := endpoint_of_lacks h
    exact ⟨message, by rw [exchange, Client.delegate, hpath]; rfl⟩
  · intro h
    refine ⟨_, _, exchange_of_not_lacks client respond request h, asks_post hcodec request,
      fun details h => ?_, fun response h => ?_⟩
    · rw [h]
      rfl
    · rw [h]
      exact standsFor_read response

/-- A success whose document says a result and an error is a failure with that error. -/
theorem exchange_settles_disputed :
    let client : Client := ⟨"http://127.0.0.1:8001", Json.strict⟩
    let response : Http.Response := ⟨200, client.codec.write (Json.ofTexts
      [("result", "2*x"), ("error", "no closed form")])⟩
    (exchange client (fun _ => .ok response) ⟨.simplify, .var "x"⟩).1 =
      .error (.backend "no closed form") := by
  intro client response
  have hlacks : ¬ Lacks .simplify := nofun
  obtain ⟨message, answered, hexchange, _, _, hresponse⟩ :=
    (exchange_settles client (fun _ => .ok response) ⟨.simplify, .var "x"⟩
      Json.strict_lawful).2 hlacks
  have hstands := hresponse _ rfl
  have hsaid : Says client response ⟨some "2*x", none, none, none, some "no closed form"⟩ :=
    ⟨_, Json.strict_lawful.read_write _ _ (by decide), ofJson?_eq_some_iff.1 (by rfl)⟩
  rw [hexchange]
  cases hanswered : answered with
  | ok answer =>
      obtain ⟨_, fields, hsaid', herror, _⟩ := (hstands.answer answer).1 hanswered
      obtain rfl := hsaid.unique hsaid'
      exact absurd herror nofun
  | error failure =>
      obtain ⟨message, rfl, hmessage⟩ := hstands.failure failure hanswered
      rw [hmessage _ _ hsaid rfl]

end Sidecar
end Reckon
