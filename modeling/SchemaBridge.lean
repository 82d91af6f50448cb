import SchemaBridge.Main
import SchemaBridge.Proofs.Response.Isolation
import SchemaBridge.Proofs.Response.RoundTrip
import SchemaBridge.Proofs.Variables.Agreement
import SchemaBridge.Proofs.Graphql.Place
import SchemaBridge.Proofs.Graphql.Visits
import SchemaBridge.Proofs.Graphql.Noting
import SchemaBridge.Proofs.Graphql.Reachability
import SchemaBridge.Proofs.Variables.Effect
import SchemaBridge.Proofs.Variables.InPlace
import SchemaBridge.Proofs.Response.Completeness
import SchemaBridge.Proofs.Exchange.Invocation
import SchemaBridge.Proofs.Exchange.Lifecycle
import SchemaBridge.Proofs.Graphql.TypeGrammar
import SchemaBridge.Proofs.Rule.Frame
import SchemaBridge.Proofs.Graphql.Reorder
import SchemaBridge.Proofs.Rule.Reorder
import SchemaBridge.Proofs.Graphql.WellNamed
import SchemaBridge.Proofs.Rule.Names
import SchemaBridge.Proofs.Graphql.Scan
import SchemaBridge.Proofs.Graphql.Formed
import SchemaBridge.Proofs.Graphql.StringText
import SchemaBridge.Proofs.Graphql.Printed
import SchemaBridge.Proofs.Graphql.ReadLiteral
import SchemaBridge.Proofs.Graphql.ReadDocument
import SchemaBridge.Proofs.Graphql.ReadFormed
import SchemaBridge.Proofs.Graphql.Nesting
import SchemaBridge.Proofs.Graphql.Reprint
import SchemaBridge.Proofs.Rule.Reprint
import SchemaBridge.Proofs.Graphql.EveryField
import SchemaBridge.Proofs.Rule.Absent
import SchemaBridge.Proofs.Response.Moved
import SchemaBridge.Proofs.Response.Chained
import SchemaBridge.Proofs.Graphql.WrittenOut
import SchemaBridge.Proofs.Rule.ArgumentNames
import SchemaBridge.Proofs.Rule.Settled
import SchemaBridge.Proofs.Rule.Commute
import SchemaBridge.Proofs.Exchange.Envelope
import SchemaBridge.Proofs.Coercion.Kinds
import SchemaBridge.Proofs.Coercion.IntegerText
import SchemaBridge.Proofs.Rule.Spelling
import SchemaBridge.Proofs.Json.Written
import SchemaBridge.Proofs.Rule.WrittenBack
