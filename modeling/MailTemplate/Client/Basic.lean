/-!
# Mail clients and containers

A document is adapted for a client and then written into the containers that the client imports.

## Main definitions

* `Client` — the clients.
* `Container` — the kinds of file.
* `Container.fileName` — the name of a container file.
-/

namespace MailTemplate

/-- A mail client. -/
inductive Client where
  /-- Clients that read plain HTML. -/
  | html
  /-- Outlook. -/
  | outlook
  deriving DecidableEq, Repr

namespace Client

/-- All clients, in the order in which they are served. -/
def all : List Client := [html, outlook]

/-- The name of a client, which is also the name of its export directory. -/
def name : Client → String
  | html => "html"
  | outlook => "outlook"

/-- The client of a name. -/
def ofName? (s : String) : Option Client := all.find? fun c => c.name == s

end Client

/-- A kind of file that a client imports. -/
inductive Container where
  /-- A message with one level around the document. -/
  | single
  /-- A message with three levels around the document. -/
  | nested
  /-- The document itself. -/
  | html
  deriving DecidableEq, Repr

namespace Container

/-- The name of a container file for a document of a base name. -/
def fileName (container : Container) (base : String) (client : Client) : String :=
  match container, client with
  | single, _ => base ++ ".oft"
  | nested, _ => base ++ ".emltpl"
  | html, .html => base ++ ".html"
  | html, .outlook => base ++ "-" ++ client.name ++ ".html"

/-- What a container is, for readers. -/
def description : Container → String
  | single => "Outlook Windows Template"
  | nested => "Outlook Mac Template"
  | html => "HTML"

end Container

end MailTemplate
