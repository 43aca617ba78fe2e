import HtmlDoc.AttrValue
import HtmlDoc.Attributes
import HtmlDoc.Builder.Basic
import HtmlDoc.Builder.Program
import HtmlDoc.Builder.TagCall
import HtmlDoc.Content
import HtmlDoc.Decimal.Binary
import HtmlDoc.Decimal.Overflow
import HtmlDoc.Decimal.Shortest
import HtmlDoc.Edit
import HtmlDoc.Element
import HtmlDoc.Except
import HtmlDoc.Fragment
import HtmlDoc.Layout
import HtmlDoc.MarkupError
import HtmlDoc.Member
import HtmlDoc.Name
import HtmlDoc.Node
import HtmlDoc.Number
import HtmlDoc.Proofs.Attributes.History
import HtmlDoc.Proofs.Attributes.Merging
import HtmlDoc.Proofs.Builder.Agreement
import HtmlDoc.Proofs.Builder.Balance
import HtmlDoc.Proofs.Builder.Meaning
import HtmlDoc.Proofs.Builder.Refusal
import HtmlDoc.Proofs.Element.Accessors
import HtmlDoc.Proofs.Element.Construction
import HtmlDoc.Proofs.Element.Members
import HtmlDoc.Proofs.Element.Spelling
import HtmlDoc.Proofs.Element.TextContent
import HtmlDoc.Proofs.Element.WritingBack
import HtmlDoc.Proofs.Layout.AttributeReading
import HtmlDoc.Proofs.Layout.Closing
import HtmlDoc.Proofs.Layout.Comment
import HtmlDoc.Proofs.Layout.Cutting
import HtmlDoc.Proofs.Layout.FreshLines
import HtmlDoc.Proofs.Layout.Indentation
import HtmlDoc.Proofs.Layout.Lines
import HtmlDoc.Proofs.Layout.RunningText
import HtmlDoc.Proofs.Layout.Spacing
import HtmlDoc.Proofs.Layout.Tags
import HtmlDoc.Proofs.Name.Accessor
import HtmlDoc.Proofs.Name.Grammar
import HtmlDoc.Proofs.Name.Nesting
import HtmlDoc.Proofs.Settings.Precedence
import HtmlDoc.Proofs.Settings.Selection
import HtmlDoc.Proofs.Text.Appending
import HtmlDoc.Proofs.Text.Decoding
import HtmlDoc.Proofs.Text.Quiet
import HtmlDoc.Proofs.Text.ScriptClosing
import HtmlDoc.Proofs.Text.ScriptReading
import HtmlDoc.Proofs.Tree.Categories
import HtmlDoc.Proofs.Tree.Elements
import HtmlDoc.Proofs.Tree.Names
import HtmlDoc.Proofs.Tree.Reachable
import HtmlDoc.Settings.Basic
import HtmlDoc.Settings.Decode
import HtmlDoc.Settings.FileTree
import HtmlDoc.Settings.Source
import HtmlDoc.Text.Blank
import HtmlDoc.Text.Entity
import HtmlDoc.Text.ScriptLiteral
import HtmlDoc.Toml.Document
import HtmlDoc.Toml.Moment
import HtmlDoc.Toml.Quoted
import HtmlDoc.Toml.Reader
import HtmlDoc.Toml.Scalar
import HtmlDoc.Toml.Value
