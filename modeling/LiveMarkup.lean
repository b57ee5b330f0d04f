import LiveMarkup.Files.Loader
import LiveMarkup.Live.Description
import LiveMarkup.Live.Holding
import LiveMarkup.Main
import LiveMarkup.Proofs.Binding.Ownership
import LiveMarkup.Proofs.Binding.Registrations
import LiveMarkup.Proofs.Binding.Skipped
import LiveMarkup.Proofs.Live.Addressing
import LiveMarkup.Proofs.Live.Assignments
import LiveMarkup.Proofs.Live.Departure
import LiveMarkup.Proofs.Live.Disposal
import LiveMarkup.Proofs.Live.Following
import LiveMarkup.Proofs.Live.Independence
import LiveMarkup.Proofs.Live.Matching
import LiveMarkup.Proofs.Live.Mounting
import LiveMarkup.Proofs.Live.Performances
import LiveMarkup.Proofs.Live.Rejection
import LiveMarkup.Proofs.Live.Residence
import LiveMarkup.Proofs.Live.Sessions
import LiveMarkup.Proofs.Live.Targets
import LiveMarkup.Proofs.Markup.Cursor
import LiveMarkup.Proofs.Markup.Nesting
import LiveMarkup.Proofs.Markup.Quoting
import LiveMarkup.Proofs.Markup.Tidy
import LiveMarkup.Proofs.Markup.Truncation
import LiveMarkup.Proofs.Node.Copying
import LiveMarkup.Proofs.Node.Forest
import LiveMarkup.Proofs.Node.Refusal
import LiveMarkup.Proofs.Reactive.Registration
import LiveMarkup.Proofs.Reactive.Scheduling
import LiveMarkup.Proofs.Reactive.SinglePass
import LiveMarkup.Proofs.Template.Grammar
import LiveMarkup.Text.Lines
